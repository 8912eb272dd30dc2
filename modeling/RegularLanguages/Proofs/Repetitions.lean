import RegularLanguages.Proofs.Names
import RegularLanguages.Proofs.Unions

/-!
# Repetitions

A repetition keeps the states of the automaton and adds a first and a last one. Their names are
fresh, the second one also for the first one, so nothing leads to the first state and nothing leaves
the last state, even if the automaton is a repetition itself.
-/

namespace RegularLanguages

open scoped Computability

variable {A : AnyAutomaton}

/-- A repetition recognizes any number of accepted words one after the other. -/
theorem language_kleeneStar (hA : A.WellFormed) : (kleeneStar A).language = A.language∗ := by
  let E := A.toEpsilonNFA
  let first := State.fresh E.states "kleene_initial"
  let last := State.fresh (E.states.insert first) "kleene_final"
  have hE : E.WellFormed := (AnyAutomaton.toEpsilonNFA_spec hA).1
  have hfirst : first ∉ E.states := State.fresh_notMem _ _
  have hlast : last ∉ E.states.insert first := State.fresh_notMem _ _
  rw [FiniteSet.mem_insert, not_or] at hlast
  calc (kleeneStar A).language
      = E.language∗ :=
        EpsilonNFA.language_repetition (EpsilonNFA.liesIn_states hE) hfirst hlast.2 hlast.1
    _ = A.language∗ := by rw [AnyAutomaton.language_toEpsilonNFA]

/-- The first and the last state are new, and different from each other. -/
theorem size_kleeneStar (A : AnyAutomaton) : (kleeneStar A).size = A.size + 2 := by
  let E := A.toEpsilonNFA
  let first := State.fresh E.states "kleene_initial"
  let last := State.fresh (E.states.insert first) "kleene_final"
  calc (kleeneStar A).size
      = (E.states.insert first).size + 1 := FiniteSet.size_insert (State.fresh_notMem _ _)
    _ = E.states.size + 1 + 1 := by rw [FiniteSet.size_insert (State.fresh_notMem _ _)]
    _ = A.size + 2 := by rw [AnyAutomaton.states_toEpsilonNFA, AnyAutomaton.size]

/-- The repetition of a well-formed automaton accepts the words that split into any number of
accepted words, and has two states more, whatever the states of the automaton are called. -/
theorem kleeneStar_accepts_sequences (hA : A.WellFormed) :
    (kleeneStar A).size = A.size + 2 ∧ ∀ w, (kleeneStar A).accepts w = true ↔
      ∃ pieces : List Word, w = pieces.flatten ∧ ∀ u ∈ pieces, A.accepts u = true := by
  refine ⟨size_kleeneStar A, fun w => ?_⟩
  rw [EpsilonNFA.accepts_iff, ← Automaton.mem_language, language_kleeneStar hA,
    Language.mem_kstar]
  exact .rfl

/-- The states of this automaton have the names that a repetition adds otherwise. It begins in one
of them, to which transitions return, and ends in the other one, which is left again. -/
theorem kleeneStar_of_automaton_with_its_names :
    let E : EpsilonNFA := ⟨.ofList ["kleene_initial", "kleene_final", "kleene_final1"],
      .ofText "ab", .ofTriples [("kleene_initial", .symbol 'a', "kleene_initial"),
        ("kleene_initial", .symbol 'b', "kleene_final"),
        ("kleene_final", .epsilon, "kleene_final1"),
        ("kleene_final1", .symbol 'a', "kleene_final")],
      "kleene_initial", .ofList ["kleene_final"]⟩
    E.WellFormed ∧ (kleeneStar E).size = 5 ∧ (kleeneStar E).accepts [] = true ∧
      (kleeneStar E).accepts ['b', 'a', 'a', 'b'] = true ∧
      (kleeneStar E).accepts ['a'] = false := by
  intro E
  have hE : E.WellFormed := by
    apply EpsilonNFA.wellFormed_ofTriples <;> simp_all [Alphabet.ofText]
    grind
  obtain ⟨hsize, hsequences⟩ := kleeneStar_accepts_sequences (A := E) hE
  have hfirst : (E : AnyAutomaton).accepts ['b', 'a'] = true := by decide +kernel
  have hsecond : (E : AnyAutomaton).accepts ['a', 'b'] = true := by decide +kernel
  refine ⟨hE, hsize.trans (by decide +kernel), (hsequences []).mpr ⟨[], rfl, by simp⟩, ?_,
    by decide +kernel⟩
  exact (hsequences _).mpr ⟨[['b', 'a'], ['a', 'b']], rfl, by simpa using ⟨hfirst, hsecond⟩⟩

end RegularLanguages
