import Mathlib.Algebra.Ring.GeomSum
import RegularLanguages.Proofs.Enumerations

/-!
# Counting words

There are as many words of some length as the power of the number of symbols says, so the words up
to some length are counted by a sum of powers. Counting may stop at a limit at any time, also for
the words of one length only: what is beyond the limit stays beyond it when more is counted, unless
there are no symbols.
-/

namespace RegularLanguages.Word

/-- The largest number that is told apart is the largest one of 64 bits. -/
theorem countLimit_eq : countLimit = 2 ^ 64 - 1 := rfl

/-- The words up to some length are counted by a sum of powers. -/
theorem countUpTo_eq_sum (size length : Nat) :
    countUpTo size length = ∑ i ∈ Finset.range (length + 1), size ^ i := by
  induction length with
  | zero => simp [countUpTo]
  | succ length ih =>
    rw [countUpTo, ih, Nat.add_comm]
    exact geom_sum_succ.symm

/-- With one symbol, there is one word of each length. -/
theorem countUpTo_one_left (length : Nat) : countUpTo 1 length = length + 1 := by
  induction length with
  | zero => rfl
  | succ length ih => rw [countUpTo, ih, Nat.one_mul, Nat.add_comm]

/-! ## Counting up to the limit -/

/-- Up to the limit, only what was counted up to the limit matters in a product. -/
theorem min_mul_min (limit n size : Nat) :
    min limit (min limit n * size) = min limit (n * size) := by
  rcases Nat.le_total n limit with hle | hle
  · rw [Nat.min_eq_right hle]
  · rw [Nat.min_eq_left hle]
    rcases Nat.eq_zero_or_pos size with rfl | hpos
    · rfl
    · rw [Nat.min_eq_left (Nat.le_mul_of_pos_right limit hpos),
        Nat.min_eq_left (hle.trans (Nat.le_mul_of_pos_right n hpos))]

/-- Up to the limit, only what was counted up to the limit matters in a sum. -/
theorem min_add_min (limit m n : Nat) : min limit (m + min limit n) = min limit (m + n) := by
  omega

/-- The number of words that are longer by up to one symbol than words of which there are
`count`. -/
def countLonger (size count : Nat) : Nat := min countLimit (1 + size * count)

/-- Counting goes on with words that are longer by one symbol, until the count stays the same. -/
theorem countMore_eq_iterate (size more count : Nat) :
    countMore size more count = (countLonger size)^[more] count := by
  induction more generalizing count with
  | zero => rfl
  | succ more ih =>
    rw [countMore]
    by_cases hfixed : countLonger size count = count
    · rw [Function.iterate_fixed hfixed]
      exact if_pos hfixed
    · rw [Function.iterate_succ_apply, ← ih]
      exact if_neg hfixed

/-- Counting longer and longer words up to the limit comes to the number of words up to the
limit. -/
theorem iterate_countLonger (size length : Nat) :
    (countLonger size)^[length] 1 = min countLimit (countUpTo size length) := by
  induction length with
  | zero => rfl
  | succ length ih =>
    rw [Function.iterate_succ_apply', ih, countLonger, countUpTo]
    calc min countLimit (1 + size * min countLimit (countUpTo size length))
      _ = min countLimit (1 + min countLimit (min countLimit (countUpTo size length) * size)) := by
        rw [min_add_min, Nat.mul_comm size]
      _ = min countLimit (1 + size * countUpTo size length) := by
        rw [min_mul_min, min_add_min, Nat.mul_comm size]

/-- Words are counted exactly up to the limit. -/
theorem boundedCountUpTo_eq (size length : Nat) :
    boundedCountUpTo size length = min countLimit (countUpTo size length) := by
  unfold boundedCountUpTo
  split
  · rename_i hone
    rw [hone, countUpTo_one_left]
  · rw [countMore_eq_iterate, iterate_countLonger]

/-! ## Counting by lengths -/

/-- The number of words up to some length and the number of words of this length. Words of the next
length are counted from those of one length, and both counts stop at the limit. -/
def countByLength (size : Nat) : (length : Nat) → Nat × Nat
  | 0 => (1, 1)
  | length + 1 =>
    let (total, layer) := countByLength size length
    let longer := min countLimit (layer * size)
    (min countLimit (total + longer), longer)

/-- Neither of the two counts misses a word below the limit. -/
theorem countByLength_eq (size length : Nat) :
    countByLength size length =
      (min countLimit (∑ i ∈ Finset.range (length + 1), size ^ i),
        min countLimit (size ^ length)) := by
  induction length with
  | zero => simp [countByLength, countLimit_eq]
  | succ length ih =>
    have hlayer : min countLimit (min countLimit (size ^ length) * size) =
        min countLimit (size ^ (length + 1)) := by rw [min_mul_min, Nat.pow_succ]
    rw [countByLength, ih]
    dsimp only
    rw [hlayer, min_add_min, Finset.sum_range_succ _ (length + 1), Nat.add_comm,
      min_add_min, Nat.add_comm]

/-- The number of words up to some length is the sum of the powers of the number of symbols, or the
limit if the sum is not below it; counting length by length, where both the words up to a length and
the words of this length are counted up to the limit only, gives the same. Below the limit it is the
number of words that are listed, which are distinct if the symbols are, and which an enumeration
yields before the first word that is too long. -/
theorem boundedCountUpTo_counts_words (size length : Nat) :
    boundedCountUpTo size length =
        min (2 ^ 64 - 1) (∑ i ∈ Finset.range (length + 1), size ^ i) ∧
      (countByLength size length).1 = boundedCountUpTo size length ∧
      (boundedCountUpTo size length < 2 ^ 64 - 1 → ∀ symbols : List Symbol,
        symbols.Nodup → symbols.length = size →
          (listUpTo symbols length).length = boundedCountUpTo size length ∧
            (listUpTo symbols length).Nodup ∧
            ∀ count, boundedCountUpTo size length < count →
              (Enumeration.start symbols).takeUpTo length count = listUpTo symbols length) := by
  have hsum : boundedCountUpTo size length =
      min (2 ^ 64 - 1) (∑ i ∈ Finset.range (length + 1), size ^ i) := by
    rw [boundedCountUpTo_eq, countUpTo_eq_sum, countLimit_eq]
  refine ⟨hsum, ?_, ?_⟩
  · rw [countByLength_eq, hsum, countLimit_eq]
  · rintro hbelow symbols hsymbols rfl
    have hlength : (listUpTo symbols length).length = boundedCountUpTo symbols.length length := by
      rw [length_listUpTo, boundedCountUpTo_eq, countLimit_eq]
      rw [boundedCountUpTo_eq, countLimit_eq] at hbelow
      omega
    refine ⟨hlength, nodup_listUpTo hsymbols, fun count hcount => ?_⟩
    rw [Enumeration.takeUpTo_start, List.take_of_length_le (hlength ▸ hcount.le)]

/-- Over two symbols, seven words have at most two symbols, those with at most 63 are as many as the
limit says, and those with 64 are not told apart from them. -/
theorem boundedCountUpTo_counts_words_over_two_symbols :
    let symbols := ['a', 'b']
    symbols.Nodup ∧ boundedCountUpTo 2 2 = 7 ∧ (listUpTo symbols 2).length = 7 ∧
      (Enumeration.start symbols).takeUpTo 2 8 = listUpTo symbols 2 ∧
      ∑ i ∈ Finset.range 64, 2 ^ i = 2 ^ 64 - 1 ∧ boundedCountUpTo 2 63 = 2 ^ 64 - 1 ∧
      boundedCountUpTo 2 64 = 2 ^ 64 - 1 := by
  intro symbols
  have hsymbols : symbols.Nodup := by decide
  have hcount : boundedCountUpTo 2 2 = 7 := by decide
  obtain ⟨-, -, hwords⟩ := boundedCountUpTo_counts_words 2 2
  obtain ⟨hlength, -, hshort⟩ := hwords (by rw [hcount]; decide) symbols hsymbols rfl
  have hsum : ∑ i ∈ Finset.range 64, 2 ^ i = 2 ^ 64 - 1 := Nat.geomSum_eq (Nat.le_refl 2) 64
  refine ⟨hsymbols, hcount, hlength.trans hcount, hshort 8 (by rw [hcount]; decide), hsum, ?_, ?_⟩
  · rw [(boundedCountUpTo_counts_words 2 63).1, hsum, Nat.min_self]
  · rw [(boundedCountUpTo_counts_words 2 64).1, Finset.sum_range_succ, hsum]
    exact Nat.min_eq_left (Nat.le_add_right _ _)

end RegularLanguages.Word
