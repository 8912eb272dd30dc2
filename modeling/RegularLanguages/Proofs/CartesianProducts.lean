import RegularLanguages.Proofs.Kinds
import RegularLanguages.Proofs.ReachablePairs

/-!
# Products of automata of any kinds

If both operands have to accept, the product is built from the nondeterministic automata: it reads a
word along a pair of traces. Any other condition depends on words that no trace accepts, and is
decided by deterministic automata. On deterministic operands the two constructions find the same
pairs and the same transitions.
-/

namespace RegularLanguages

namespace DFA

variable {L R : DFA} {acceptance : Acceptance}

/-- Read as a nondeterministic automaton, an automaton has the successors that it had. -/
@[simp] theorem toList_successors_toNFA (D : DFA) (q : State) (a : Symbol) :
    (D.toNFA.successors q a).toList = (D.successor? q a).toList := by
  refine (FiniteSet.eq_toList_of_ordered ?_ fun r => ?_).symm
  · cases D.successor? q a <;> simp
  · rw [Option.mem_toList, ← NFA.moves_symbol, ← D.sameParts_toNFA.moves_iff, moves_symbol]

/-- For deterministic automata, the nondeterministic construction makes the automaton that the
deterministic one makes. -/
theorem toNFA_pairs (hL : L.WellFormed) (hR : R.WellFormed) :
    (pairs L R acceptance).toNFA = NFA.pairs L.toNFA R.toNFA acceptance := by
  refine ((explores_pairs hL hR).toNFA_toDFA StatePair.name_injective
    eq_of_mem_all_successor?).trans ?_
  rw [NFA.pairs]
  simp only [toList_successors_toNFA]
  rfl

end DFA

namespace NFA

variable {L R : NFA} {acceptance : Acceptance} {w : Word}

/-- The automaton of pairs recognizes a word along a trace of each automaton, to states that
together count as accepting. -/
theorem recognizes_pairs (hL : L.WellFormed) (hR : R.WellFormed)
    (halphabet : L.alphabet = R.alphabet) : (pairs L R acceptance).Recognizes w ↔
      ∃ l r, Trace L.Moves L.initial w l ∧ Trace R.Moves R.initial w r ∧
        acceptance.combine (L.isFinal l) (R.isFinal r) = true := by
  have hright := leads_eq_moves hR
  rw [← halphabet] at hright
  refine ((explores_pairs hL hR).recognizes_toNFA StatePair.name_injective).trans ?_
  have htrace (p : StatePair) := StatePair.trace_leads_all (p := ⟨L.initial, R.initial⟩) (q := p)
    (w := w) L.alphabet.toList (fun q a => (L.successors q a).toList)
    fun q a => (R.successors q a).toList
  simp only [leads_eq_moves hL, hright] at htrace
  simp only [htrace]
  constructor
  · intro h
    obtain ⟨p, ⟨hl, hr⟩, haccepting⟩ := h
    exact ⟨p.left, p.right, hl, hr, haccepting⟩
  · intro h
    obtain ⟨l, r, hl, hr, haccepting⟩ := h
    exact ⟨⟨l, r⟩, ⟨hl, hr⟩, haccepting⟩

/-- If both automata have to accept, the traces of the two can be chosen independently. -/
theorem accepts_pairs_both (hL : L.WellFormed) (hR : R.WellFormed)
    (halphabet : L.alphabet = R.alphabet) :
    (pairs L R .both).accepts w = (L.accepts w && R.accepts w) := by
  rw [Bool.eq_iff_iff, Bool.and_eq_true, accepts_iff, accepts_iff, accepts_iff,
    recognizes_pairs hL hR halphabet]
  simp only [Acceptance.combine, Bool.and_eq_true, Automaton.isFinal_iff, Automaton.Recognizes]
  constructor
  · intro h
    obtain ⟨l, r, hl, hr, hlfinal, hrfinal⟩ := h
    exact ⟨⟨l, hlfinal, hl⟩, r, hrfinal, hr⟩
  · intro h
    obtain ⟨⟨l, hlfinal, hl⟩, r, hrfinal, hr⟩ := h
    exact ⟨l, r, hl, hr, hlfinal, hrfinal⟩

end NFA

section AnyKinds

variable {l r : AnyAutomaton} {acceptance : Acceptance} (halphabet : l.alphabet = r.alphabet)
include halphabet

/-- The product for words that both operands accept runs the operands as they are, without
completing them. -/
theorem cartesianProduct_both :
    cartesianProduct l r .both = .ok (l.toNFA.pairs r.toNFA .both) := by
  unfold cartesianProduct
  rw [sameAlphabet, if_pos halphabet]

/-- Unless both operands have to accept, the product is that of deterministic automata. -/
theorem cartesianProduct_of_ne (h : acceptance ≠ .both) :
    cartesianProduct l r acceptance = (l.toDFA.product r.toDFA acceptance).map DFA.toNFA := by
  unfold cartesianProduct
  rw [sameAlphabet, if_pos halphabet]
  cases acceptance with
  | both => exact absurd rfl h
  | either | leftOnly | exactlyOne => rfl

/-- Over one alphabet, the product of automata of any kinds accepts a word exactly if what they say
of it combines to accepting. -/
theorem exists_cartesianProduct (hl : l.WellFormed) (hr : r.WellFormed) (acceptance : Acceptance) :
    ∃ P, cartesianProduct l r acceptance = .ok P ∧
      ∀ w, P.accepts w = acceptance.combine (l.accepts w) (r.accepts w) := by
  by_cases h : acceptance = .both
  · subst h
    obtain ⟨hlN, hlaccepts⟩ := AnyAutomaton.toNFA_spec hl
    obtain ⟨hrN, hraccepts⟩ := AnyAutomaton.toNFA_spec hr
    refine ⟨_, cartesianProduct_both halphabet, fun w => ?_⟩
    rw [NFA.accepts_pairs_both hlN hrN (by simpa using halphabet), hlaccepts, hraccepts]
    rfl
  · obtain ⟨hlD, hlaccepts⟩ := AnyAutomaton.toDFA_spec hl
    obtain ⟨hrD, hraccepts⟩ := AnyAutomaton.toDFA_spec hr
    have halphabet' : l.toDFA.alphabet = r.toDFA.alphabet := by simpa using halphabet
    obtain ⟨P, hP, -, haccepts⟩ := DFA.exists_product hlD hrD halphabet' acceptance
    refine ⟨P.toNFA, ?_, fun w => ?_⟩
    · rw [cartesianProduct_of_ne halphabet h, hP]
      rfl
    · rw [DFA.accepts_toNFA, haccepts, hlaccepts, hraccepts]

end AnyKinds

/-- For deterministic operands, the product is that of deterministic automata in all cases. -/
theorem cartesianProduct_dfa {L R : DFA} (hL : L.WellFormed) (hR : R.WellFormed)
    (halphabet : L.alphabet = R.alphabet) (acceptance : Acceptance) :
    cartesianProduct L R acceptance = (L.product R acceptance).map DFA.toNFA := by
  by_cases h : acceptance = .both
  · subst h
    have hsame : (L : AnyAutomaton).alphabet = (R : AnyAutomaton).alphabet := halphabet
    rw [cartesianProduct_both hsame, DFA.product_eq_ok halphabet]
    exact congrArg Except.ok (DFA.toNFA_pairs hL hR).symm
  · exact cartesianProduct_of_ne halphabet h

/-- The product of two well-formed automata of any kinds over one alphabet accepts a word exactly if
what they say of it combines to accepting. For deterministic operands it is the product of
deterministic automata, read as a nondeterministic one, also if both have to accept and it is built
from the nondeterministic automata. -/
theorem cartesianProduct_combines_languages {l r : AnyAutomaton} (hl : l.WellFormed)
    (hr : r.WellFormed) (halphabet : l.alphabet = r.alphabet) (acceptance : Acceptance) :
    ∃ P, cartesianProduct l r acceptance = .ok P ∧
      (∀ w, P.accepts w = acceptance.combine (l.accepts w) (r.accepts w)) ∧
      ∀ L R : DFA, l = L → r = R → ∃ D, L.product R acceptance = .ok D ∧ P = D.toNFA := by
  obtain ⟨P, hP, haccepts⟩ := exists_cartesianProduct halphabet hl hr acceptance
  refine ⟨P, hP, haccepts, ?_⟩
  intro L R hL hR
  subst hL hR
  obtain ⟨D, hD, -⟩ := DFA.exists_product hl hr halphabet acceptance
  rw [cartesianProduct_dfa hl hr halphabet, hD] at hP
  exact ⟨D, hD, (Except.ok.inj hP).symm⟩

/-- Empty moves lead the first operand to a final state, and the second one has to choose where a
symbol leads. One product accepts what both accept, another what only the first one accepts. The
product of a deterministic automaton that lacks transitions with itself is the deterministic one. -/
theorem cartesianProduct_of_operands_that_choose :
    let E : EpsilonNFA := ⟨.ofList ["p", "q", "r"], .ofText "ab", .ofTriples [("p", .epsilon, "q"),
      ("q", .epsilon, "r"), ("r", .symbol 'a', "p")], "p", .ofList ["r"]⟩
    let N : NFA := ⟨.ofList ["p", "q"], .ofText "ab", .ofTriples [("p", 'a', "p"),
      ("p", 'b', "p"), ("p", 'a', "q")], "p", .ofList ["q"]⟩
    let D : DFA := ⟨.ofList ["p", "q"], .ofText "ab", .ofTriples [("p", 'a', "q")], "p",
      .ofList ["q"]⟩
    E.WellFormed ∧ N.WellFormed ∧ D.WellFormed ∧
      (∃ P, cartesianProduct E N .both = .ok P ∧ P.accepts ['a', 'a'] = true ∧
        P.accepts [] = false ∧ P.accepts ['b', 'a'] = false) ∧
      (∃ P, cartesianProduct E N .leftOnly = .ok P ∧ P.accepts [] = true ∧
        P.accepts ['a', 'a'] = false) ∧
      ∃ P C, cartesianProduct D D .both = .ok P ∧ D.product D .both = .ok C ∧ P = C.toNFA ∧
        P.accepts ['a'] = true := by
  intro E N D
  have hE : E.WellFormed := by
    apply EpsilonNFA.wellFormed_ofTriples <;> simp_all [Alphabet.ofText]
    grind
  have hN : N.WellFormed := by
    apply NFA.wellFormed_ofTriples <;> simp_all [Alphabet.ofText]
    grind
  have hD : D.WellFormed := by
    apply DFA.wellFormed_ofTriples <;> simp_all [Alphabet.ofText]
  obtain ⟨P, hP, hPaccepts, -⟩ :=
    cartesianProduct_combines_languages (l := E) (r := N) hE hN rfl .both
  obtain ⟨Q, hQ, hQaccepts, -⟩ :=
    cartesianProduct_combines_languages (l := E) (r := N) hE hN rfl .leftOnly
  obtain ⟨S, hS, hSaccepts, hsame⟩ :=
    cartesianProduct_combines_languages (l := D) (r := D) hD hD rfl .both
  obtain ⟨C, hC, hSC⟩ := hsame D D rfl rfl
  refine ⟨hE, hN, hD, ⟨P, hP, ?_, ?_, ?_⟩, ⟨Q, hQ, ?_, ?_⟩, S, C, hS, hC, hSC, ?_⟩
  · exact (hPaccepts _).trans (by decide +kernel)
  · exact (hPaccepts _).trans (by decide +kernel)
  · exact (hPaccepts _).trans (by decide +kernel)
  · exact (hQaccepts _).trans (by decide +kernel)
  · exact (hQaccepts _).trans (by decide +kernel)
  · exact (hSaccepts _).trans (by decide +kernel)

end RegularLanguages
