import Mathlib.Data.List.Induction
import Mathlib.Data.List.Nodup
import Mathlib.Data.List.TakeWhile
import Mathlib.Tactic.Ring
import RegularLanguages.Enumeration
import RegularLanguages.Proofs.WordOrder

/-!
# Enumerations yield every word once

The word that an enumeration yields next has as its number the number of words before it: the
positions of its symbols are the digits of this number. Each step of the enumeration takes the
positions with one number to those with the next, so that no word is left out, and if the symbols
ascend, the word that comes after a word is greater. A word is no longer than some length exactly if
its number is less than the number of such words.
-/

namespace RegularLanguages

/-- There is at least one word of at most a given length, the empty one. -/
theorem Word.countUpTo_pos (size length : Nat) : 0 < countUpTo size length := by
  cases length with
  | zero => exact Nat.one_pos
  | succ length => exact Nat.add_pos_left Nat.one_pos _

namespace Enumeration

variable {symbols : List Symbol} {size : Nat} {positions moved : List (Fin size)}

/-! ## Positions as digits -/

/-- The number whose digits are the positions, counted from one. -/
def index : List (Fin size) → Nat
  | [] => 0
  | i :: positions => (i.val + 1) * size ^ positions.length + index positions

/-- A digit more multiplies the number of the digits before it by the size and adds its own
place. -/
theorem index_concat (positions : List (Fin size)) (i : Fin size) :
    index (positions ++ [i]) = index positions * size + i.val + 1 := by
  induction positions with
  | nil => simp [index]
  | cons j positions ih =>
    rw [List.cons_append, index, ih, index, List.length_append, List.length_singleton]
    ring

/-- Moving on does not change how many positions there are. -/
theorem length_advance (positions : List (Fin size)) :
    (advance positions).1.length = positions.length := by
  fun_induction advance positions with
  | case1 => rfl
  | case2 i positions rest hrest ih | case3 i positions rest hrest hlt ih
  | case4 i positions rest hrest hlt ih =>
    rw [hrest] at ih
    exact congrArg (· + 1) ih

/-- Moving on takes a number to the next one, but when all positions return to the front, a power of
the size is missing from it. -/
theorem index_advance (positions : List (Fin size)) :
    index (advance positions).1 + (if (advance positions).2 then size ^ positions.length else 0) =
      index positions + 1 := by
  fun_induction advance positions with
  | case1 => rfl
  | case2 i positions rest hrest ih =>
    have hlength := length_advance positions
    rw [hrest] at ih hlength
    change (i.val + 1) * size ^ rest.length + index rest + 0 =
      (i.val + 1) * size ^ positions.length + index positions + 1
    rw [hlength, Nat.add_assoc, Nat.add_assoc, ← ih]
    rfl
  | case3 i positions rest hrest hlt ih =>
    have hlength := length_advance positions
    rw [hrest] at ih hlength
    change (i.val + 1 + 1) * size ^ rest.length + index rest + 0 =
      (i.val + 1) * size ^ positions.length + index positions + 1
    rw [hlength, Nat.add_assoc ((i.val + 1) * _) _ 1, ← ih, if_pos rfl]
    ring
  | case4 i positions rest hrest hlt ih =>
    have hlength := length_advance positions
    rw [hrest] at ih hlength
    have hsize : i.val + 1 = size := Nat.le_antisymm i.isLt (Nat.not_lt.mp hlt)
    change (0 + 1) * size ^ rest.length + index rest + size ^ (positions.length + 1) =
      (i.val + 1) * size ^ positions.length + index positions + 1
    rw [hlength, Nat.add_assoc _ _ 1, ← ih, if_pos rfl, hsize]
    ring

/-- When all positions have returned to the front, they are at the front. -/
theorem advance_eq_replicate (hsize : 0 < size) (h : (advance positions).2 = true) :
    (advance positions).1 = List.replicate positions.length ⟨0, hsize⟩ := by
  fun_induction advance positions with
  | case1 => rfl
  | case2 i positions rest hrest ih => contradiction
  | case3 i positions rest hrest hlt ih => contradiction
  | case4 i positions rest hrest hlt ih =>
    rw [hrest] at ih
    exact congrArg (_ :: ·) (ih rfl)

/-- With symbols, some word comes after every word. -/
theorem exists_following (hsize : 0 < size) (positions : List (Fin size)) :
    ∃ moved, following? positions = some moved := by
  rw [following?, dif_pos hsize]
  split
  · exact ⟨_, rfl⟩
  · exact ⟨_, rfl⟩

/-- The word that comes after a word has the next number. -/
theorem index_following (h : following? positions = some moved) :
    index moved = index positions + 1 := by
  unfold following? at h
  split at h
  · rename_i hsize
    have hindex := index_advance positions
    split at h
    · rename_i rest hrest
      obtain rfl := Option.some.inj h
      rw [hrest] at hindex
      exact hindex
    · rename_i rest hrest
      obtain rfl := Option.some.inj h
      have hzeros := advance_eq_replicate hsize (congrArg Prod.snd hrest)
      rw [hrest] at hindex hzeros
      obtain rfl : rest = _ := hzeros
      rw [List.replicate_succ, index, List.length_replicate, ← hindex, if_pos rfl]
      ring
  · contradiction

/-- With symbols, every number is that of some positions. -/
theorem exists_index_eq (hsize : 0 < size) (n : Nat) :
    ∃ positions : List (Fin size), index positions = n := by
  induction n with
  | zero => exact ⟨[], rfl⟩
  | succ n ih =>
    obtain ⟨positions, rfl⟩ := ih
    obtain ⟨moved, hmoved⟩ := exists_following hsize positions
    exact ⟨moved, index_following hmoved⟩

/-- There are no more positions than some length exactly if their number is less than the number of
words up to this length. -/
theorem index_lt_countUpTo_iff {length : Nat} :
    index positions < Word.countUpTo size length ↔ positions.length ≤ length := by
  induction positions using List.reverseRecOn generalizing length with
  | nil => exact iff_of_true (Word.countUpTo_pos size length) (Nat.zero_le length)
  | append_singleton positions i ih =>
    rw [index_concat, List.length_append, List.length_singleton]
    cases length with
    | zero =>
      rw [Word.countUpTo]
      omega
    | succ length =>
      rw [Nat.add_le_add_iff_right, ← ih, Word.countUpTo, Nat.add_comm 1, Nat.add_lt_add_iff_right,
        Nat.mul_comm size]
      -- The last digit does not decide whether the next multiple of the size is reached.
      constructor
      · intro hlt
        exact Nat.lt_of_mul_lt_mul_right ((Nat.le_add_right _ _).trans_lt hlt)
      · intro hlt
        have hnext : (index positions + 1) * size ≤ Word.countUpTo size length * size :=
          Nat.mul_le_mul_right size hlt
        have hi := i.isLt
        rw [Nat.add_mul] at hnext
        omega

/-! ## Positions as words -/

/-- A word has as many symbols as positions. -/
theorem length_wordAt (positions : List (Fin symbols.length)) :
    (wordAt positions).length = positions.length := List.length_map _

/-- A word is over the symbols exactly if it is at some positions. -/
theorem exists_wordAt_eq_iff {w : Word} :
    (∃ positions : List (Fin symbols.length), wordAt positions = w) ↔ ∀ a ∈ w, a ∈ symbols := by
  constructor
  · rintro ⟨positions, rfl⟩ a ha
    obtain ⟨i, -, rfl⟩ := List.mem_map.mp ha
    exact List.get_mem symbols i
  · intro hw
    induction w with
    | nil => exact ⟨[], rfl⟩
    | cons a w ih =>
      obtain ⟨positions, rfl⟩ := ih fun b hb => hw b (List.mem_cons_of_mem a hb)
      obtain ⟨i, rfl⟩ := List.mem_iff_get.mp (hw a List.mem_cons_self)
      exact ⟨i :: positions, rfl⟩

/-- Positions that have moved on without returning to the front spell a greater word, if the symbols
ascend. -/
theorem compare_wordAt_advance (hsymbols : symbols.Pairwise (· < ·))
    {positions : List (Fin symbols.length)} (h : (advance positions).2 = false) :
    compare (wordAt positions) (wordAt (advance positions).1) = .lt := by
  fun_induction advance positions with
  | case1 => contradiction
  | case2 i positions rest hrest ih =>
    rw [hrest] at ih
    change compare (symbols.get i :: wordAt positions) (symbols.get i :: wordAt rest) = .lt
    rw [Word.compare_cons_cons, Std.compare_self]
    exact ih rfl
  | case3 i positions rest hrest hlt ih =>
    have hascends : symbols[i.val] < symbols[i.val + 1] :=
      List.pairwise_iff_getElem.mp hsymbols _ _ i.isLt hlt (Nat.lt_succ_self _)
    have hcompare : compare symbols[i.val] symbols[i.val + 1] = .lt :=
      compareOfLessAndEq_eq_lt.mpr hascends
    change compare (symbols[i.val] :: wordAt positions) (symbols[i.val + 1] :: wordAt rest) = .lt
    rw [Word.compare_cons_cons, hcompare]
    rfl
  | case4 i positions rest hrest hlt ih => contradiction

/-- The word that comes after a word is greater, if the symbols ascend. -/
theorem lengthLex_following (hsymbols : symbols.Pairwise (· < ·))
    {positions moved : List (Fin symbols.length)} (h : following? positions = some moved) :
    Word.lengthLex (wordAt positions) (wordAt moved) = .lt := by
  unfold following? at h
  split at h
  · split at h
    · rename_i rest hrest
      obtain rfl := Option.some.inj h
      have hlength := length_advance positions
      have hcompare := compare_wordAt_advance hsymbols (congrArg Prod.snd hrest)
      rw [hrest] at hlength hcompare
      rw [Word.lengthLex_eq, length_wordAt, length_wordAt, ← hlength, Std.compare_self]
      exact hcompare
    · obtain rfl := Option.some.inj h
      apply Word.lengthLex_of_length_lt
      rw [length_wordAt, length_wordAt, List.length_replicate]
      exact Nat.lt_succ_self _
  · contradiction

/-! ## Numbers of words -/

/-- The numeral of the number of some positions has the symbols there as its digits. -/
theorem numeral?_index (positions : List (Fin symbols.length)) (suffix : Word) :
    Word.numeral? symbols (index positions) suffix = some (wordAt positions ++ suffix) := by
  induction positions using List.reverseRecOn generalizing suffix with
  | nil =>
    rw [index, Word.numeral?]
    rfl
  | append_singleton positions i ih =>
    have hdigit : (index positions * symbols.length + i.val) % symbols.length = i.val :=
      Nat.mul_add_mod_of_lt i.isLt
    have hrest : (index positions * symbols.length + i.val) / symbols.length = index positions := by
      rw [Nat.mul_comm, Nat.mul_add_div i.pos, Nat.div_eq_of_lt i.isLt, Nat.add_zero]
    rw [index_concat, Word.numeral?, hdigit, hrest, List.getElem?_eq_getElem i.isLt]
    dsimp only
    rw [ih, wordAt, wordAt, List.map_append, List.append_assoc]
    rfl

/-- The number of the positions of a word finds the word. -/
theorem ofIndex?_index (positions : List (Fin symbols.length)) :
    Word.ofIndex? symbols (index positions) = some (wordAt positions) := by
  rw [Word.ofIndex?, numeral?_index, List.append_nil]

end Enumeration

namespace Word

variable {symbols : List Symbol} {length m n : Nat} {v w : Word}

open Enumeration

/-- Without symbols there is no word besides the empty one. -/
theorem ofIndex?_nil (n : Nat) : ofIndex? [] n = if n = 0 then some [] else none := by
  cases n <;> rw [ofIndex?, numeral?] <;> rfl

/-- The word with a number is the one at the positions with this number. -/
theorem ofIndex?_eq_some_iff :
    ofIndex? symbols n = some w ↔
      ∃ positions : List (Fin symbols.length), index positions = n ∧ wordAt positions = w := by
  constructor
  · intro h
    by_cases hempty : symbols = []
    · subst hempty
      rw [ofIndex?_nil] at h
      split at h
      · rename_i hzero
        exact ⟨[], hzero.symm, Option.some.inj h⟩
      · contradiction
    · obtain ⟨positions, rfl⟩ := exists_index_eq (List.length_pos_iff.mpr hempty) n
      exact ⟨positions, rfl, Option.some.inj ((ofIndex?_index positions).symm.trans h)⟩
  · rintro ⟨positions, rfl, rfl⟩
    exact ofIndex?_index positions

/-- Exactly the words over the symbols have a number. -/
theorem exists_ofIndex?_eq_some_iff :
    (∃ n, ofIndex? symbols n = some w) ↔ ∀ a ∈ w, a ∈ symbols := by
  rw [← exists_wordAt_eq_iff]
  constructor
  · intro h
    obtain ⟨n, hn⟩ := h
    obtain ⟨positions, -, hword⟩ := ofIndex?_eq_some_iff.mp hn
    exact ⟨positions, hword⟩
  · intro h
    obtain ⟨positions, rfl⟩ := h
    exact ⟨index positions, ofIndex?_index positions⟩

/-- Words up to some length have the numbers below the number of these words. -/
theorem length_le_iff (hw : ofIndex? symbols n = some w) :
    w.length ≤ length ↔ n < countUpTo symbols.length length := by
  obtain ⟨positions, rfl, rfl⟩ := ofIndex?_eq_some_iff.mp hw
  rw [length_wordAt, index_lt_countUpTo_iff]

/-- With symbols, every number is that of a word. -/
theorem exists_numbering (hsymbols : symbols ≠ []) :
    ∃ word : Nat → Word, ofIndex? symbols = some ∘ word := by
  choose positions hpositions using exists_index_eq (List.length_pos_iff.mpr hsymbols)
  refine ⟨fun n => wordAt (positions n), funext fun n => ?_⟩
  exact ofIndex?_eq_some_iff.mpr ⟨positions n, hpositions n, rfl⟩

/-- The word with the next number is greater, if the symbols ascend. -/
theorem lengthLex_of_succ (hsymbols : symbols.Pairwise (· < ·))
    (hv : ofIndex? symbols n = some v) (hw : ofIndex? symbols (n + 1) = some w) :
    lengthLex v w = .lt := by
  obtain ⟨positions, rfl, rfl⟩ := ofIndex?_eq_some_iff.mp hv
  have hsize : 0 < symbols.length := by
    by_contra hempty
    obtain rfl : symbols = [] := List.length_eq_zero_iff.mp (Nat.eq_zero_of_not_pos hempty)
    rw [ofIndex?_nil, if_neg (Nat.succ_ne_zero _)] at hw
    contradiction
  obtain ⟨moved, hmoved⟩ := exists_following hsize positions
  rw [← index_following hmoved, ofIndex?_index] at hw
  obtain rfl := Option.some.inj hw
  exact lengthLex_following hsymbols hmoved

/-- The word with a greater number is greater, if the symbols ascend. -/
theorem lengthLex_of_lt (hsymbols : symbols.Pairwise (· < ·)) (hlt : m < n)
    (hv : ofIndex? symbols m = some v) (hw : ofIndex? symbols n = some w) :
    lengthLex v w = .lt := by
  by_cases hempty : symbols = []
  · subst hempty
    rw [ofIndex?_nil, if_neg (Nat.ne_zero_of_lt hlt)] at hw
    contradiction
  · obtain ⟨word, hword⟩ := exists_numbering hempty
    have htrans : IsTrans Word fun v w => lengthLex v w = .lt :=
      ⟨fun _ _ _ => Std.TransCmp.lt_trans⟩
    have hstep (k : Nat) : lengthLex (word k) (word (k + 1)) = .lt :=
      lengthLex_of_succ hsymbols (congrFun hword k) (congrFun hword (k + 1))
    have hrun := Nat.rel_of_forall_rel_succ_of_lt (fun v w => lengthLex v w = .lt) hstep hlt
    rw [hword] at hv hw
    obtain rfl := Option.some.inj hv
    obtain rfl := Option.some.inj hw
    exact hrun

/-- Ascending symbols are distinct. -/
theorem nodup_of_ascending (hsymbols : symbols.Pairwise (· < ·)) : symbols.Nodup := by
  apply hsymbols.imp
  rintro a b hlt rfl
  exact Char.lt_irrefl a hlt

/-- Words have one number, if the symbols are distinct. -/
theorem index_unique (hsymbols : symbols.Nodup) (hm : ofIndex? symbols m = some w)
    (hn : ofIndex? symbols n = some w) : m = n := by
  obtain ⟨positions, rfl, rfl⟩ := ofIndex?_eq_some_iff.mp hm
  obtain ⟨positions', rfl, hsame⟩ := ofIndex?_eq_some_iff.mp hn
  have hinjective : Function.Injective symbols.get := List.nodup_iff_injective_get.mp hsymbols
  rw [List.map_injective_iff.mpr hinjective hsame]

/-! ## Lists of words -/

/-- Without symbols, the empty word is the only one that is listed. -/
theorem listUpTo_nil (length : Nat) : listUpTo [] length = [[]] := rfl

/-- Without symbols, the empty word is the only one that is counted. -/
theorem countUpTo_zero_left (length : Nat) : countUpTo 0 length = 1 := by
  cases length with
  | zero => rfl
  | succ length => rw [countUpTo, Nat.zero_mul]

/-- The words up to some length are listed in the order of their numbers. -/
theorem listUpTo_eq_filterMap (symbols : List Symbol) (length : Nat) :
    listUpTo symbols length =
      (List.range (countUpTo symbols.length length)).filterMap (ofIndex? symbols) := by
  by_cases hempty : symbols = []
  · subst hempty
    rw [listUpTo_nil, List.length_nil, countUpTo_zero_left]
    simp [ofIndex?_nil]
  · exact if_neg fun h => hempty (List.isEmpty_iff.mp h)

/-- The empty word is listed first. -/
theorem exists_listUpTo_eq_cons (symbols : List Symbol) (length : Nat) :
    ∃ rest, listUpTo symbols length = [] :: rest := by
  obtain ⟨n, hn⟩ := Nat.exists_eq_add_one.mpr (countUpTo_pos symbols.length length)
  have hzero : ofIndex? symbols 0 = some [] := ofIndex?_index []
  rw [listUpTo_eq_filterMap, hn, List.range_succ_eq_map, List.filterMap_cons, hzero]
  exact ⟨_, rfl⟩

/-- The words up to some length over the symbols are listed, and no others. -/
theorem mem_listUpTo :
    w ∈ listUpTo symbols length ↔ (∀ a ∈ w, a ∈ symbols) ∧ w.length ≤ length := by
  rw [listUpTo_eq_filterMap, List.mem_filterMap, ← exists_ofIndex?_eq_some_iff]
  constructor
  · intro h
    obtain ⟨n, hn, hw⟩ := h
    exact ⟨⟨n, hw⟩, (length_le_iff hw).mpr (List.mem_range.mp hn)⟩
  · intro h
    obtain ⟨⟨n, hw⟩, hle⟩ := h
    exact ⟨n, List.mem_range.mpr ((length_le_iff hw).mp hle), hw⟩

/-- No word is listed twice, if the symbols are distinct. -/
theorem nodup_listUpTo (hsymbols : symbols.Nodup) : (listUpTo symbols length).Nodup := by
  rw [listUpTo_eq_filterMap, List.Nodup, List.pairwise_filterMap]
  refine List.nodup_range.imp fun hne v hv w hw heq => hne ?_
  exact index_unique hsymbols hv (heq ▸ hw)

/-- As many words are listed as there are numbers. -/
theorem length_listUpTo (symbols : List Symbol) (length : Nat) :
    (listUpTo symbols length).length = countUpTo symbols.length length := by
  by_cases hempty : symbols = []
  · subst hempty
    exact (countUpTo_zero_left length).symm
  · obtain ⟨word, hword⟩ := exists_numbering hempty
    rw [listUpTo_eq_filterMap, hword, List.filterMap_eq_map, List.length_map, List.length_range]

/-- The words up to some length are listed in ascending order, if the symbols ascend. -/
theorem ordered_listUpTo (hsymbols : symbols.Pairwise (· < ·)) :
    (listUpTo symbols length).Pairwise fun v w => lengthLex v w = .lt := by
  rw [listUpTo_eq_filterMap, List.pairwise_filterMap]
  exact List.pairwise_lt_range.imp fun hlt v hv w hw => lengthLex_of_lt hsymbols hlt hv hw

end Word

namespace Enumeration

variable {symbols : List Symbol}

/-! ## What is yielded -/

/-- The first of the words to come is the one that is yielded next. -/
theorem nth?_zero (enumeration : Enumeration symbols) :
    enumeration.nth? 0 = enumeration.yield?.map (·.1) := by
  rw [nth?, take]
  cases enumeration.yield? <;> rfl

/-- A later one of the words to come is found after the word that is yielded next. -/
theorem nth?_succ (enumeration : Enumeration symbols) (n : Nat) :
    enumeration.nth? (n + 1) = enumeration.yield?.bind fun yielded => yielded.2.nth? n := by
  rw [nth?, take]
  cases enumeration.yield? <;> rfl

/-- The words that are taken are those that are yielded one after another. -/
theorem take_eq_filterMap (enumeration : Enumeration symbols) (count : Nat) :
    enumeration.take count = (List.range count).filterMap enumeration.nth? := by
  induction count generalizing enumeration with
  | zero => rfl
  | succ count ih =>
    have hrest : enumeration.nth? ∘ Nat.succ =
        fun n => enumeration.yield?.bind fun yielded => yielded.2.nth? n :=
      funext enumeration.nth?_succ
    rw [List.range_succ_eq_map, List.filterMap_cons, List.filterMap_map, nth?_zero, hrest, take]
    cases enumeration.yield? with
    | none => simp
    | some yielded => simp [ih]

/-- From positions on, the words are yielded in the order of their numbers. -/
theorem nth?_of_next? (hsymbols : symbols ≠ []) (positions : List (Fin symbols.length)) (n : Nat) :
    nth? ⟨some positions⟩ n = Word.ofIndex? symbols (index positions + n) := by
  induction n generalizing positions with
  | zero =>
    rw [nth?_zero, Nat.add_zero, ofIndex?_index]
    rfl
  | succ n ih =>
    obtain ⟨moved, hmoved⟩ := exists_following (List.length_pos_iff.mpr hsymbols) positions
    have hnext : (⟨some positions⟩ : Enumeration symbols).yield? =
        some (wordAt positions, ⟨some moved⟩) := by rw [yield?, Option.map_some, hmoved]
    rw [nth?_succ, hnext, Option.bind_some, ih, index_following hmoved, Nat.add_right_comm,
      Nat.add_assoc]

/-- Without symbols, the enumeration yields the empty word and ends. -/
theorem take_start_nil (count : Nat) : (start []).take (count + 1) = [[]] := by
  cases count <;> rfl

/-- The enumeration yields the words in the order of their numbers. -/
theorem nth?_start (symbols : List Symbol) : (start symbols).nth? = Word.ofIndex? symbols := by
  funext n
  by_cases hempty : symbols = []
  · subst hempty
    rw [nth?, take_start_nil, Word.ofIndex?_nil]
    cases n <;> rfl
  · rw [start, nth?_of_next? hempty, index, Nat.zero_add]

/-- The first words of an enumeration are those with the first numbers. -/
theorem take_start (symbols : List Symbol) (count : Nat) :
    (start symbols).take count = (List.range count).filterMap (Word.ofIndex? symbols) := by
  rw [take_eq_filterMap, nth?_start]

/-- With symbols, the enumeration does not end. -/
theorem length_take_start (hsymbols : symbols ≠ []) (count : Nat) :
    ((start symbols).take count).length = count := by
  obtain ⟨word, hword⟩ := Word.exists_numbering hsymbols
  rw [take_start, hword, List.filterMap_eq_map, List.length_map, List.length_range]

/-- Numbers below a bound come first. -/
theorem takeWhile_range (n m : Nat) :
    (List.range n).takeWhile (fun i => decide (i < m)) = List.range (min n m) := by
  rcases Nat.le_total n m with h | h
  · rw [Nat.min_eq_left h, List.takeWhile_eq_self_iff]
    intro i hi
    exact decide_eq_true ((List.mem_range.mp hi).trans_le h)
  · obtain ⟨k, rfl⟩ := Nat.exists_eq_add_of_le h
    have hbelow : ∀ i ∈ List.range m, decide (i < m) = true :=
      fun i hi => decide_eq_true (List.mem_range.mp hi)
    rw [Nat.min_eq_right h, List.range_add, List.takeWhile_append_of_pos hbelow,
      List.append_right_eq_self, List.takeWhile_map, List.map_eq_nil_iff]
    cases k with
    | zero => rfl
    | succ k => rw [List.range_succ_eq_map, List.takeWhile_cons_of_neg (by simp)]

/-- The words before the first one that is too long are those that are listed. -/
theorem takeUpTo_start (symbols : List Symbol) (length count : Nat) :
    (start symbols).takeUpTo length count = (Word.listUpTo symbols length).take count := by
  by_cases hempty : symbols = []
  · subst hempty
    cases count with
    | zero => rfl
    | succ count =>
      rw [takeUpTo, take_start_nil, Word.listUpTo_nil, List.take_of_length_le (by simp),
        List.takeWhile_cons_of_pos (by simp), List.takeWhile_nil]
  · obtain ⟨word, hword⟩ := Word.exists_numbering hempty
    have hshort : (fun w : Word => decide (w.length ≤ length)) ∘ word =
        fun n => decide (n < Word.countUpTo symbols.length length) :=
      funext fun n => decide_eq_decide.mpr (Word.length_le_iff (congrFun hword n))
    rw [takeUpTo, take_start, Word.listUpTo_eq_filterMap, hword, List.filterMap_eq_map,
      List.takeWhile_map, hshort, takeWhile_range, ← List.map_take, List.take_range]

/-- A part of the enumeration is found without the words before it. -/
theorem slice_eq_drop_take (symbols : List Symbol) (skip count : Nat) :
    Word.slice symbols skip count = ((start symbols).take (skip + count)).drop skip := by
  by_cases hempty : symbols = []
  · subst hempty
    cases skip with
    | zero =>
      cases count with
      | zero => rfl
      | succ count => simp [Word.slice, Word.available, Word.ofIndex?_nil, take_start_nil]
    | succ skip =>
      have hnone : ∀ n ∈ List.range' (skip + 1) (Word.available [] count),
          Word.ofIndex? [] n = none := by
        intro n hn
        rw [Word.ofIndex?_nil, if_neg]
        have hle := (List.mem_range'_1.mp hn).1
        omega
      rw [Nat.add_right_comm, take_start_nil, Word.slice, List.filterMap_eq_nil_iff.mpr hnone,
        List.drop_succ_cons, List.drop_nil]
  · obtain ⟨word, hword⟩ := Word.exists_numbering hempty
    have havailable : Word.available symbols count = count :=
      if_neg fun h => hempty (List.isEmpty_iff.mp h)
    rw [take_start, Word.slice, hword, List.filterMap_eq_map, ← List.map_drop, havailable,
      List.range_eq_range', List.drop_range', Nat.zero_add, Nat.mul_one, Nat.add_sub_cancel_left]

/-- Over ascending symbols, the enumeration yields every word over them once and nothing else, each
word after the smaller ones. Without symbols it yields the empty word and ends, otherwise it does
not end. The words before the first one that is too long are the words up to this length, and parts
of the enumeration are found without the words before them. -/
theorem yields_every_word_once (symbols : List Symbol) (hsymbols : symbols.Pairwise (· < ·)) :
    (∀ w, (∀ a ∈ w, a ∈ symbols) → ∃! n, (start symbols).nth? n = some w) ∧
      (∀ n w, (start symbols).nth? n = some w → ∀ a ∈ w, a ∈ symbols) ∧
      (∀ m n v w, m < n → (start symbols).nth? m = some v → (start symbols).nth? n = some w →
        Word.lengthLex v w = .lt) ∧
      (symbols = [] → ∀ count, (start symbols).take (count + 1) = [[]]) ∧
      (symbols ≠ [] → ∀ count, ((start symbols).take count).length = count) ∧
      (∀ length w, w ∈ Word.listUpTo symbols length ↔
        (∀ a ∈ w, a ∈ symbols) ∧ w.length ≤ length) ∧
      (∀ length count,
        (start symbols).takeUpTo length count = (Word.listUpTo symbols length).take count) ∧
      ∀ skip count,
        Word.slice symbols skip count = ((start symbols).take (skip + count)).drop skip := by
  rw [nth?_start]
  refine ⟨fun w hw => ?_, fun n w hw => Word.exists_ofIndex?_eq_some_iff.mp ⟨n, hw⟩,
    fun m n v w => Word.lengthLex_of_lt hsymbols, ?_, length_take_start,
    fun length w => Word.mem_listUpTo, takeUpTo_start symbols, slice_eq_drop_take symbols⟩
  · obtain ⟨n, hn⟩ := Word.exists_ofIndex?_eq_some_iff.mpr hw
    exact ⟨n, hn, fun m hm => Word.index_unique (Word.nodup_of_ascending hsymbols) hm hn⟩
  · rintro rfl
    exact take_start_nil

/-- Over two symbols, the empty word is followed by both words with one symbol and then by those
with two, and every number has its word. -/
theorem yields_every_word_once_over_two_symbols :
    let symbols := ['a', 'b']
    symbols.Pairwise (· < ·) ∧
      (start symbols).takeUpTo 2 100 =
        [[], ['a'], ['b'], ['a', 'a'], ['a', 'b'], ['b', 'a'], ['b', 'b']] ∧
      (∃! n, (start symbols).nth? n = some ['b', 'a']) ∧
      ((start symbols).take 100).length = 100 := by
  intro symbols
  have hsymbols : symbols.Pairwise (· < ·) := by decide
  obtain ⟨honce, -, -, -, hendless, -, hshort, -⟩ := yields_every_word_once symbols hsymbols
  have hover : ∀ a ∈ ['b', 'a'], a ∈ symbols := by simp [symbols]
  refine ⟨hsymbols, ?_, honce _ hover, hendless (List.cons_ne_nil _ _) 100⟩
  rw [hshort]
  decide +kernel

end Enumeration

end RegularLanguages
