import RegularLanguages.Proofs.CartesianProducts
import RegularLanguages.Proofs.Complements
import RegularLanguages.Proofs.Unions

/-!
# Differences

A difference intersects the first operand with the complement of the second one, so only the second
one has to be deterministic. The symmetric difference is the union of the two differences and needs
both. The complement accepts words over its alphabet only, but this is the alphabet of the other
operand too, whose accepted words are over it. So differences agree with the products of completed
automata that ask for one operand to accept and not the other.
-/

namespace RegularLanguages

variable {l r : AnyAutomaton}

/-- Over one alphabet, a difference is the intersection with a complement, if there is one. -/
theorem difference_eq_ok {C : DFA} (halphabet : l.alphabet = r.alphabet)
    (h : complement r = .ok C) : difference l r = intersection l C := by
  rw [difference, sameAlphabet, if_pos halphabet, h]

/-- Without a complement of the second operand there is no difference. -/
theorem difference_eq_error {e : OperationError} (halphabet : l.alphabet = r.alphabet)
    (h : complement r = .error e) : difference l r = .error e := by
  rw [difference, sameAlphabet, if_pos halphabet, h]

section WellFormed

variable (hl : l.WellFormed) (hr : r.WellFormed) (halphabet : l.alphabet = r.alphabet)
include hl hr halphabet

/-- The intersection with the complement accepts what the second operand does not. Foreign symbols,
on which the complement rejects too, are in no word that the first operand accepts. -/
theorem accepts_and_complement {C : DFA} (h : complement r = .ok C) (w : Word) :
    (l.accepts w && C.accepts w) = (l.accepts w && !r.accepts w) := by
  rw [Bool.eq_iff_iff, Bool.and_eq_true, Bool.and_eq_true, Bool.not_eq_true',
    AnyAutomaton.accepts_complement_iff hr h]
  refine and_congr_right fun haccepts => and_iff_right ?_
  rw [← halphabet]
  exact AnyAutomaton.symbol_mem_of_accepts hl haccepts

/-- A deterministic automaton can be taken from any other over its alphabet. -/
theorem exists_difference (hdeterministic : r.IsDeterministic) :
    ∃ N, difference l r = .ok N ∧ N.alphabet = l.alphabet ∧
      ∀ w, N.accepts w = (l.accepts w && !r.accepts w) := by
  obtain ⟨C, hcomplement, hC, halphabetC⟩ := hdeterministic.exists_complement hr
  obtain ⟨hN, haccepts⟩ := AnyAutomaton.toNFA_spec hl
  have hsame : l.alphabet = (C : AnyAutomaton).alphabet := halphabet.trans halphabetC.symm
  refine ⟨l.toNFA.pairs C.toNFA .both, ?_, AnyAutomaton.alphabet_toNFA l, fun w => ?_⟩
  · rw [difference_eq_ok halphabet hcomplement]
    exact cartesianProduct_both hsame
  · rw [NFA.accepts_pairs_both hN (C.sameParts_toNFA.wellFormed hC)
      ((AnyAutomaton.alphabet_toNFA l).trans hsame), haccepts, DFA.accepts_toNFA,
      accepts_and_complement hl hr halphabet hcomplement]

/-- Of two deterministic automata over one alphabet there is a symmetric difference. -/
theorem exists_symmetricDifference (hleft : l.IsDeterministic) (hright : r.IsDeterministic) :
    ∃ E, symmetricDifference l r = .ok E ∧ ∀ w, E.accepts w = (l.accepts w != r.accepts w) := by
  obtain ⟨N, hN, halphabetN, hNaccepts⟩ := exists_difference hl hr halphabet hright
  obtain ⟨M, hM, halphabetM, hMaccepts⟩ := exists_difference hr hl halphabet.symm hleft
  have hsame : (N : AnyAutomaton).alphabet = (M : AnyAutomaton).alphabet :=
    halphabetN.trans (halphabet.trans halphabetM.symm)
  refine ⟨_, ?_, fun w => (accepts_of_union (union_eq_ok hsame) w).trans ?_⟩
  · rw [symmetricDifference, hN, hM]
    exact union_eq_ok hsame
  · change (N.accepts w || M.accepts w) = _
    rw [hNaccepts, hMaccepts]
    cases l.accepts w <;> cases r.accepts w <;> rfl

/-- The difference of two automata of any kinds over one alphabet accepts what the first one accepts
and the second one does not, and exists if the second one is deterministic. The symmetric difference
accepts what exactly one of them accepts, and exists if both are deterministic. For operands of the
deterministic kind, these are the words that the products accept. -/
theorem differences_accept_what_one_operand_accepts :
    (r.IsDeterministic → ∃ N, difference l r = .ok N ∧
      ∀ w, N.accepts w = (l.accepts w && !r.accepts w)) ∧
    (¬r.IsDeterministic → difference l r = .error (.notDeterministic r.kind)) ∧
    (l.IsDeterministic → r.IsDeterministic → ∃ E, symmetricDifference l r = .ok E ∧
      ∀ w, E.accepts w = (l.accepts w != r.accepts w)) ∧
    (¬r.IsDeterministic → symmetricDifference l r = .error (.notDeterministic r.kind)) ∧
    (r.IsDeterministic → ¬l.IsDeterministic →
      symmetricDifference l r = .error (.notDeterministic l.kind)) ∧
    ∀ L R : DFA, l = L → r = R → ∃ N P E Q,
      difference l r = .ok N ∧ L.product R .leftOnly = .ok P ∧
      symmetricDifference l r = .ok E ∧ L.product R .exactlyOne = .ok Q ∧
      ∀ w, N.accepts w = P.accepts w ∧ E.accepts w = Q.accepts w := by
  have hrefuses (h : ¬r.IsDeterministic) :=
    difference_eq_error halphabet (AnyAutomaton.complement_eq_error hr h)
  refine ⟨fun hright => ?_, hrefuses, exists_symmetricDifference hl hr halphabet, fun hright => ?_,
    fun hright hleft => ?_, fun L R hL hR => ?_⟩
  · obtain ⟨N, hN, -, haccepts⟩ := exists_difference hl hr halphabet hright
    exact ⟨N, hN, haccepts⟩
  · rw [symmetricDifference, hrefuses hright]
  · obtain ⟨N, hN, -⟩ := exists_difference hl hr halphabet hright
    rw [symmetricDifference, hN,
      difference_eq_error halphabet.symm (AnyAutomaton.complement_eq_error hl hleft)]
  · subst hL hR
    obtain ⟨N, hN, -, hNaccepts⟩ := exists_difference hl hr halphabet R.isDeterministic
    obtain ⟨E, hE, hEaccepts⟩ :=
      exists_symmetricDifference hl hr halphabet L.isDeterministic R.isDeterministic
    obtain ⟨P, hP, -, hPaccepts⟩ := DFA.exists_product hl hr halphabet .leftOnly
    obtain ⟨Q, hQ, -, hQaccepts⟩ := DFA.exists_product hl hr halphabet .exactlyOne
    refine ⟨N, P, E, Q, hN, hP, hE, hQ, fun w => ⟨?_, ?_⟩⟩
    · exact (hNaccepts w).trans (hPaccepts w).symm
    · exact (hEaccepts w).trans (hQaccepts w).symm

end WellFormed

/-- Two automata lack transitions at different places, and a third one has to choose where a symbol
leads. The words on which one of the first two gets stuck are in the differences that they should be
in. The third one can only be what is taken from. -/
theorem differences_of_automata_that_get_stuck :
    let L : DFA := ⟨.ofList ["p", "q"], .ofText "ab", .ofTriples [("p", 'a', "q"),
      ("q", 'b', "q")], "p", .ofList ["q"]⟩
    let R : DFA := ⟨.ofList ["p", "sink"], .ofText "ab", .ofTriples [("p", 'b', "sink"),
      ("p", 'a', "sink")], "p", .ofList ["sink"]⟩
    let M : NFA := ⟨.ofList ["p", "q"], .ofText "ab", .ofTriples [("p", 'a', "p"),
      ("p", 'a', "q")], "p", .ofList ["q"]⟩
    L.WellFormed ∧ R.WellFormed ∧ M.WellFormed ∧
      (∃ N P E Q, difference L R = .ok N ∧ L.product R .leftOnly = .ok P ∧
        symmetricDifference L R = .ok E ∧ L.product R .exactlyOne = .ok Q ∧
        N.accepts ['a', 'b'] = true ∧ P.accepts ['a', 'b'] = true ∧ N.accepts ['a'] = false ∧
        E.accepts ['b'] = true ∧ Q.accepts ['b'] = true ∧ E.accepts ['a'] = false) ∧
      (∃ N, difference M R = .ok N ∧ N.accepts ['a', 'a'] = true) ∧
      difference R M = .error (.notDeterministic .nfa) ∧
      symmetricDifference M R = .error (.notDeterministic .nfa) := by
  intro L R M
  have hL : L.WellFormed := by
    apply DFA.wellFormed_ofTriples <;> simp_all [Alphabet.ofText]
    grind
  have hR : R.WellFormed := by
    apply DFA.wellFormed_ofTriples <;> simp_all [Alphabet.ofText]
    grind
  have hM : M.WellFormed := by
    apply NFA.wellFormed_ofTriples <;> simp_all [Alphabet.ofText]
    grind
  have hbranch : ¬M.IsDeterministic := by
    intro h
    have hsame := h.moves_unique "p" 'a' "p" "q" (NFA.moves_symbol.mpr (by decide +kernel))
      (NFA.moves_symbol.mpr (by decide +kernel))
    exact absurd hsame (by decide)
  obtain ⟨hdifference, -, hsymmetric, -, -, hproducts⟩ :=
    differences_accept_what_one_operand_accepts (l := L) (r := R) hL hR rfl
  obtain ⟨N, hN, hNaccepts⟩ := hdifference R.isDeterministic
  obtain ⟨E, hE, hEaccepts⟩ := hsymmetric L.isDeterministic R.isDeterministic
  obtain ⟨N', P, E', Q, hN', hP, hE', hQ, hsame⟩ := hproducts L R rfl rfl
  obtain rfl := Except.ok.inj (hN.symm.trans hN')
  obtain rfl := Except.ok.inj (hE.symm.trans hE')
  obtain ⟨htaken, -, -, -, hrefused, -⟩ :=
    differences_accept_what_one_operand_accepts (l := M) (r := R) hM hR rfl
  obtain ⟨S, hS, hSaccepts⟩ := htaken R.isDeterministic
  obtain ⟨-, hrefuses, -⟩ :=
    differences_accept_what_one_operand_accepts (l := R) (r := M) hR hM rfl
  refine ⟨hL, hR, hM, ⟨N, P, E, Q, hN, hP, hE, hQ, ?_, ?_, ?_, ?_, ?_, ?_⟩, ⟨S, hS, ?_⟩,
    hrefuses hbranch, hrefused R.isDeterministic hbranch⟩
  · exact (hNaccepts _).trans (by decide +kernel)
  · exact (hsame _).1.symm.trans ((hNaccepts _).trans (by decide +kernel))
  · exact (hNaccepts _).trans (by decide +kernel)
  · exact (hEaccepts _).trans (by decide +kernel)
  · exact (hsame _).2.symm.trans ((hEaccepts _).trans (by decide +kernel))
  · exact (hEaccepts _).trans (by decide +kernel)
  · exact (hSaccepts _).trans (by decide +kernel)

end RegularLanguages
