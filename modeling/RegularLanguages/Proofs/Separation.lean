import RegularLanguages.Proofs.Kinds
import RegularLanguages.Proofs.LeastWords
import RegularLanguages.Proofs.ReachablePairs

/-!
# Separating words

Two automata are compared over the union of their alphabets, where nothing is read on the symbols
that one of them lacks, and after completion, where nothing is missing. So their product is never
refused, and it accepts what exactly one of them accepts. The least word of the product is the
least word on which the two disagree.
-/

namespace RegularLanguages.DFA

variable {D L R : DFA} {w : Word}

/-- More symbols lead to no other states. -/
theorem runFrom_extendAlphabet (alphabet : Alphabet) (q : State) :
    DFA.runFrom (D.extendAlphabet alphabet) q w = D.runFrom q w := by
  induction w generalizing q with
  | nil => rfl
  | cons a w ih =>
    rw [runFrom_cons, runFrom_cons]
    change (D.successor? q a).bind _ = _
    simp only [ih]

/-- Over a larger alphabet the same words are accepted. -/
theorem accepts_extendAlphabet (alphabet : Alphabet) :
    DFA.accepts (D.extendAlphabet alphabet) w = D.accepts w := by
  rw [accepts_eq_acceptsFrom, accepts_eq_acceptsFrom, acceptsFrom, acceptsFrom,
    runFrom_extendAlphabet]
  rfl

/-- An automaton as an operand of a comparison, over a larger alphabet and complete. -/
def completedOver (D : DFA) (alphabet : Alphabet) : DFA := DFA.complete (D.extendAlphabet alphabet)

section CompletedOver

variable {alphabet : Alphabet}

/-- An operand of a comparison is well-formed if the automaton is. -/
theorem wellFormed_completedOver (hD : D.WellFormed) (alphabet : Alphabet) :
    (D.completedOver alphabet).WellFormed :=
  wellFormed_complete (hD.extendAlphabet alphabet)

/-- An operand of a comparison is complete. -/
theorem isComplete_completedOver : (D.completedOver alphabet).isComplete = true :=
  isComplete_complete _

/-- An operand of a comparison has its own symbols and those it is compared over. -/
theorem alphabet_completedOver :
    (D.completedOver alphabet).alphabet = (D.extendAlphabet alphabet).alphabet := alphabet_complete

/-- An operand of a comparison accepts the same words, since what completion adds is never final. -/
theorem accepts_completedOver (hD : D.WellFormed) :
    (D.completedOver alphabet).accepts w = D.accepts w :=
  (accepts_complete (hD.extendAlphabet alphabet)).trans (accepts_extendAlphabet alphabet)

end CompletedOver

/-- With the symbols of both added to each, two automata have the same alphabet. -/
theorem alphabet_extendAlphabet_union (L R : DFA) :
    (L.extendAlphabet (L.alphabet ∪ R.alphabet)).alphabet =
      (R.extendAlphabet (L.alphabet ∪ R.alphabet)).alphabet := by
  apply Std.ExtTreeSet.ext_mem
  intro a
  simp only [Automaton.extendAlphabet, Std.ExtTreeSet.mem_union_iff]
  tauto

/-- The comparison is never refused: it looks for the least word of the automaton of pairs. -/
theorem separate?_eq (L R : DFA) : L.separate? R =
    (pairs (L.completedOver (L.alphabet ∪ R.alphabet)) (R.completedOver (L.alphabet ∪ R.alphabet))
      .exactlyOne).leastWord? := by
  rw [separate?, product_eq_ok (alphabet_extendAlphabet_union L R)]
  rfl

/-- The comparison finds the least word that exactly one of the automata accepts. -/
theorem findsLeast_separate? (hL : L.WellFormed) (hR : R.WellFormed) :
    Word.FindsLeast (fun v => L.accepts v ≠ R.accepts v) (L.separate? R) := by
  have hL' := wellFormed_completedOver hL (L.alphabet ∪ R.alphabet)
  have hR' := wellFormed_completedOver hR (L.alphabet ∪ R.alphabet)
  have hsame := alphabet_extendAlphabet_union L R
  rw [← alphabet_completedOver, ← alphabet_completedOver] at hsame
  rw [separate?_eq]
  refine (findsLeast_leastWord? (wellFormed_pairs hL' hR')).congr fun v => ?_
  rw [accepts_pairs_of_isComplete hL' hR' isComplete_completedOver isComplete_completedOver hsame,
    accepts_completedOver hL, accepts_completedOver hR, Acceptance.combine, bne_iff_ne]

/-- Two well-formed automata, over the same alphabet or not, are separated by no word exactly if
they accept the same words. Otherwise a word is found that one of them accepts and the other does
not; it is over the union of their alphabets, and in length-lexicographic order no greater than any
other such word. The automata count as equivalent exactly if no word is found. -/
theorem separating_word_is_least (L R : DFA) (hL : L.WellFormed) (hR : R.WellFormed) :
    (L.separate? R = none ↔ ∀ w, L.accepts w = R.accepts w) ∧
    (∀ w, L.separate? R = some w → L.accepts w ≠ R.accepts w ∧
      (∀ a ∈ w, a ∈ L.alphabet ∪ R.alphabet) ∧
      ∀ v, L.accepts v ≠ R.accepts v → (Word.lengthLex w v).isLE) ∧
    (L.equivalent R = true ↔ L.separate? R = none) := by
  have hleast := findsLeast_separate? hL hR
  refine ⟨?_, ?_, ?_⟩
  · simpa only [ne_eq, Decidable.not_not] using hleast.eq_none_iff
  · intro w hw
    have hdiffer := (hleast.isLeast w hw).holds
    refine ⟨hdiffer, fun a ha => ?_, (hleast.isLeast w hw).isLE⟩
    rw [Std.ExtTreeSet.mem_union_iff]
    cases hLw : L.accepts w with
    | true => exact .inl (AnyAutomaton.symbol_mem_of_accepts (A := L) hL hLw a ha)
    | false =>
      have hRw : R.accepts w = true := by
        rwa [hLw, ne_eq, eq_comm, Bool.not_eq_false] at hdiffer
      exact .inr (AnyAutomaton.symbol_mem_of_accepts (A := R) hR hRw a ha)
  · rw [equivalent, Option.isNone_iff_eq_none]

/-- An automaton is separated from one with one more symbol by the least word that only the other
accepts, and is equivalent to one that reads this symbol in vain. -/
theorem separating_word_over_different_alphabets :
    let L : DFA := ⟨.ofList ["p"], .ofText "a", .ofTriples [("p", 'a', "p")], "p", .ofList ["p"]⟩
    let R : DFA := ⟨.ofList ["p", "q"], .ofText "ab",
      .ofTriples [("p", 'a', "p"), ("p", 'b', "q")], "p", .ofList ["p", "q"]⟩
    let S : DFA := ⟨.ofList ["p", "q"], .ofText "ab",
      .ofTriples [("p", 'a', "p"), ("p", 'b', "q")], "p", .ofList ["p"]⟩
    L.WellFormed ∧ R.WellFormed ∧ S.WellFormed ∧ L.separate? R = some ['b'] ∧
      (∀ v, L.accepts v ≠ R.accepts v → (Word.lengthLex ['b'] v).isLE) ∧
      ∀ w, L.accepts w = S.accepts w := by
  intro L R S
  have hL : L.WellFormed := by
    apply wellFormed_ofTriples <;> simp_all [Alphabet.ofText]
  have hR : R.WellFormed := by
    apply wellFormed_ofTriples <;> simp_all [Alphabet.ofText]
    grind
  have hS : S.WellFormed := by
    apply wellFormed_ofTriples <;> simp_all [Alphabet.ofText]
    grind
  have hfound : L.separate? R = some ['b'] := by decide +kernel
  obtain ⟨-, hleast, -⟩ := separating_word_is_least L R hL hR
  obtain ⟨hsame, -, -⟩ := separating_word_is_least L S hL hS
  exact ⟨hL, hR, hS, hfound, (hleast _ hfound).2.2, hsame.mp (by decide +kernel)⟩

end RegularLanguages.DFA
