import RegularLanguages.Operations.Regular
import RegularLanguages.Proofs.Completion
import RegularLanguages.Proofs.Determinism

/-!
# Complements

The complement of a deterministic automaton exchanges the final states of the completed automaton
for the others. It is complete already, so the complement of it exchanges them back. An automaton of
another kind has a complement if it is deterministic, and then it has that of the deterministic
automaton with the same parts.
-/

namespace RegularLanguages

namespace DFA

variable {D : DFA} {q : State} {w : Word}

/-- The final states of the complement are the states that are not final. -/
theorem mem_finals_complement :
    q ∈ D.complement.finals ↔ q ∈ D.complete.states ∧ q ∉ D.complete.finals := by
  refine FiniteSet.mem_filter.trans (and_congr_right fun _ => ?_)
  rw [← Automaton.isFinal_iff, Bool.not_eq_true', Bool.not_eq_true]

/-- Exchanging the final states changes no run. -/
theorem runFrom_complement : D.complement.runFrom q w = D.complete.runFrom q w := by
  induction w generalizing q with
  | nil => rfl
  | cons a w ih =>
    rw [runFrom_cons, runFrom_cons]
    change (D.complete.successor? q a).bind _ = _
    simp only [ih]

/-- The complement accepts the words over the alphabet that the automaton does not accept. -/
theorem accepts_complement_iff (hD : D.WellFormed) :
    D.complement.accepts w = true ↔ (∀ a ∈ w, a ∈ D.alphabet) ∧ D.accepts w = false := by
  have hC := wellFormed_complete hD
  have hsome := isSome_runFrom_iff hC D.isComplete_complete hC.initial_mem (w := w)
  rw [alphabet_complete] at hsome
  rw [← hsome, ← accepts_complete hD, accepts_eq_acceptsFrom, accepts_eq_acceptsFrom, acceptsFrom,
    acceptsFrom, runFrom_complement]
  change ((D.complete.runFrom D.complete.initial w).any D.complement.isFinal) = true ↔ _
  cases hrun : D.complete.runFrom D.complete.initial w with
  | none => simp
  | some q =>
    have hq := runFrom_mem hC hC.initial_mem hrun
    rw [Option.any_some, Option.any_some, Automaton.isFinal_iff, mem_finals_complement,
      ← Bool.not_eq_true, Automaton.isFinal_iff]
    simp [hq]

/-- The complement is complete, because it is made of the completed automaton. -/
theorem isComplete_complement (D : DFA) : D.complement.isComplete = true :=
  isComplete_iff.mpr (isComplete_iff.mp D.isComplete_complete)

/-- The complement has the states and transitions of the completed automaton. -/
theorem wellFormed_complement (hD : D.WellFormed) : D.complement.WellFormed where
  initial_mem := (wellFormed_complete hD).initial_mem
  finals_subset _ hq := (mem_finals_complement.mp hq).1
  source_mem := (wellFormed_complete hD).source_mem
  target_mem := (wellFormed_complete hD).target_mem
  symbol_mem := (wellFormed_complete hD).symbol_mem

/-- The complement of the complement is the completed automaton. -/
theorem complement_complement (hD : D.WellFormed) : D.complement.complement = D.complete := by
  have hC := wellFormed_complete hD
  have hsame : D.complement.complete = D.complement :=
    complete_of_isComplete D.isComplete_complement
  have hfinals : D.complement.complement.finals = D.complete.finals := by
    refine Std.ExtTreeSet.ext_mem fun q => ?_
    rw [mem_finals_complement, hsame, mem_finals_complement]
    change q ∈ D.complete.states ∧ ¬(q ∈ D.complete.states ∧ q ∉ D.complete.finals) ↔ _
    have hstate := hC.finals_subset q
    tauto
  calc D.complement.complement
      = { D.complement.complete with finals := D.complement.complement.finals } := rfl
    _ = { D.complement with finals := D.complete.finals } := by rw [hsame, hfinals]
    _ = D.complete := rfl

end DFA

/-- The complement of an automaton is that of the deterministic one that it is read as. -/
theorem complement_eq_ok_iff {A : AnyAutomaton} {C : DFA} :
    complement A = .ok C ↔ ∃ D, A.asDeterministic? = some D ∧ D.complement = C := by
  rw [complement]
  cases A.asDeterministic? with
  | none => simp
  | some D => simp

namespace AnyAutomaton

variable {A : AnyAutomaton}

/-- The complement accepts the words over the alphabet that the automaton does not accept. -/
theorem accepts_complement_iff (hA : A.WellFormed) {D : DFA} (h : complement A = .ok D) (w : Word) :
    D.accepts w = true ↔ (∀ a ∈ w, a ∈ A.alphabet) ∧ A.accepts w = false := by
  obtain ⟨C, hread, rfl⟩ := complement_eq_ok_iff.mp h
  obtain ⟨hC, halphabet, haccepts⟩ := asDeterministic?_spec hA hread
  rw [DFA.accepts_complement_iff hC, halphabet, haccepts]

/-- A deterministic automaton has a complement, over the same alphabet. -/
theorem IsDeterministic.exists_complement (hA : A.WellFormed) (h : A.IsDeterministic) :
    ∃ C, complement A = .ok C ∧ C.WellFormed ∧ C.alphabet = A.alphabet := by
  obtain ⟨D, hD, hread⟩ := h.exists_asDeterministic? hA
  exact ⟨D.complement, complement_eq_ok_iff.mpr ⟨D, hD, rfl⟩,
    DFA.wellFormed_complement (hread.wellFormed hA), DFA.alphabet_complete.trans hread.alphabet_eq⟩

/-- No other automaton has a complement. -/
theorem complement_eq_error (hA : A.WellFormed) (h : ¬A.IsDeterministic) :
    complement A = .error (.notDeterministic A.kind) := by
  rw [complement, asDeterministic?_eq_none hA h]

end AnyAutomaton

/-- The complement of a well-formed automaton accepts the words over the alphabet that are rejected,
and the complement of the complement is the completed automaton. A deterministic automaton of any
kind is read as one with the same parts and has the complement of that. Any other is refused. -/
theorem complement_accepts_what_is_rejected {D : DFA} {A : AnyAutomaton} (hD : D.WellFormed)
    (hA : A.WellFormed) :
    ((∀ w, D.complement.accepts w = true ↔ (∀ a ∈ w, a ∈ D.alphabet) ∧ D.accepts w = false) ∧
      D.complement.complement = D.complete) ∧
    (A.IsDeterministic → ∃ B, A.asDeterministic? = some B ∧ A.ReadAs B ∧
      complement A = .ok B.complement ∧
      (∀ w, B.complement.accepts w = true ↔ (∀ a ∈ w, a ∈ A.alphabet) ∧ A.accepts w = false) ∧
      complement B.complement = .ok B.complete) ∧
    (¬A.IsDeterministic → complement A = .error (.notDeterministic A.kind)) := by
  refine ⟨⟨fun w => DFA.accepts_complement_iff hD, DFA.complement_complement hD⟩, ?_,
    AnyAutomaton.complement_eq_error hA⟩
  intro hdeterministic
  obtain ⟨B, hB, hread⟩ := hdeterministic.exists_asDeterministic? hA
  have hcomplement := complement_eq_ok_iff.mpr ⟨B, hB, rfl⟩
  refine ⟨B, hB, hread, hcomplement, AnyAutomaton.accepts_complement_iff hA hcomplement, ?_⟩
  exact complement_eq_ok_iff.mpr
    ⟨B.complement, rfl, DFA.complement_complement (hread.wellFormed hA)⟩

/-- An automaton has a state called `sink` and lacks transitions. Its complement accepts the words
on which it gets stuck, unless they have a foreign symbol, and so does that of the same automaton of
the kind with empty moves. With two successors on a symbol or an empty move, there is none. -/
theorem complement_of_automaton_with_state_named_sink :
    let D : DFA := ⟨.ofList ["p", "sink"], .ofText "ab", .ofTriples [("p", 'a', "sink")], "p",
      .ofList ["sink"]⟩
    let E : EpsilonNFA := ⟨.ofList ["p", "sink"], .ofText "ab",
      .ofTriples [("p", .symbol 'a', "sink")], "p", .ofList ["sink"]⟩
    let N : NFA := ⟨.ofList ["p", "sink"], .ofText "ab",
      .ofTriples [("p", 'a', "p"), ("p", 'a', "sink")], "p", .ofList ["sink"]⟩
    let F : EpsilonNFA := ⟨.ofList ["p", "sink"], .ofText "ab",
      .ofTriples [("p", .epsilon, "sink")], "p", .ofList ["sink"]⟩
    D.WellFormed ∧ E.WellFormed ∧ N.WellFormed ∧ F.WellFormed ∧
      D.complement.accepts ['a'] = false ∧ D.complement.accepts ['b', 'a'] = true ∧
      D.complement.accepts ['c'] = false ∧ D.complement.complement = D.complete ∧
      (∃ B, complement E = .ok B ∧ B.accepts ['a'] = false ∧ B.accepts ['b', 'a'] = true) ∧
      complement N = .error (.notDeterministic .nfa) ∧
      complement F = .error (.notDeterministic .epsilonNFA) := by
  intro D E N F
  have hD : D.WellFormed := by
    apply DFA.wellFormed_ofTriples <;> simp_all [Alphabet.ofText]
  have hE : E.WellFormed := by
    apply EpsilonNFA.wellFormed_ofTriples <;> simp_all [Alphabet.ofText]
  have hN : N.WellFormed := by
    apply NFA.wellFormed_ofTriples <;> simp_all [Alphabet.ofText]
    grind
  have hF : F.WellFormed := by
    apply EpsilonNFA.wellFormed_ofTriples <;> simp_all [Alphabet.ofText]
  obtain ⟨⟨haccepts, htwice⟩, hdeterministic, -⟩ :=
    complement_accepts_what_is_rejected (A := E) hD hE
  obtain ⟨-, -, hN'⟩ := complement_accepts_what_is_rejected (A := N) hD hN
  obtain ⟨-, -, hF'⟩ := complement_accepts_what_is_rejected (A := F) hD hF
  obtain ⟨C, hC⟩ := Option.isSome_iff_exists.mp
    (show (AnyAutomaton.asDeterministic? E).isSome = true by decide +kernel)
  have hread := AnyAutomaton.readAs_of_asDeterministic? (A := E) hE hC
  obtain ⟨B, -, -, hB, hBaccepts, -⟩ := hdeterministic hread.isDeterministic
  have hsymbols : ∀ a ∈ ['b', 'a'], a ∈ Alphabet.ofText "ab" := by simp [Alphabet.ofText]
  have hrejects : E.accepts ['b', 'a'] = false := by decide +kernel
  have hbranch : ¬N.IsDeterministic := by
    intro h
    have hsame := h.moves_unique "p" 'a' "p" "sink" (NFA.moves_symbol.mpr (by decide +kernel))
      (NFA.moves_symbol.mpr (by decide +kernel))
    exact absurd hsame (by decide)
  have hempty : ¬F.IsDeterministic := fun h =>
    h.not_moves_epsilon "p" "sink" (EpsilonNFA.moves_iff.mpr (by decide +kernel))
  refine ⟨hD, hE, hN, hF, ?_, ?_, ?_, htwice, ⟨B.complement, hB, ?_, ?_⟩, hN' hbranch, hF' hempty⟩
  · rw [← Bool.not_eq_true, haccepts]
    exact fun h => absurd h.2 (by decide +kernel)
  · exact (haccepts _).mpr ⟨hsymbols, by decide +kernel⟩
  · rw [← Bool.not_eq_true, haccepts]
    exact fun h => absurd (h.1 'c' (by decide)) (by decide +kernel)
  · rw [← Bool.not_eq_true, hBaccepts]
    exact fun h => absurd h.2 (by decide +kernel)
  · exact (hBaccepts _).mpr ⟨hsymbols, hrejects⟩

end RegularLanguages
