import RegularLanguages.Proofs.Minimality
import RegularLanguages.Proofs.Renaming
import RegularLanguages.Proofs.Soundness

/-!
# Minimizing again

Missing transitions and dead states are not the same to refinement, so the minimal automaton of a
partial one need not be the least for its language. But all states of it are reached, and any two
of them are told apart by what runs on some word show. So minimizing it again leaves nothing out
and finds classes of one state each: it only puts the names of the states in braces.
-/

namespace RegularLanguages

/-- Different states give sets of one state with different names. -/
theorem State.ofSet_single_injective :
    Function.Injective fun q : State => ofSet (StateSet.single q) := by
  intro p q hname
  have hq : q ∈ StateSet.single p := by
    rw [ofSet_inj (StateSet.single_ne_empty p) (StateSet.single_ne_empty q) hname]
    exact StateSet.mem_single.mpr rfl
  exact (StateSet.mem_single.mp hq).symm

namespace DFA

variable {D : DFA} {p q : State}

/-- Minimizing adds no states. -/
theorem size_minimize_le (hD : D.WellFormed) : D.minimize.size ≤ D.size := by
  have hmerges := merges_minimize hD
  have hmember : ∀ r ∈ D.minimize.states, ∃ q, q ∈ D.trimmed.states ∧
      className (DFA.indistinguishable D.trimmed) q = r := fun r hr => (hmerges.mem_states r).mp hr
  choose! member hmember using hmember
  apply FiniteSet.size_le_of_injOn member
  · intro r hr
    have htrimmed := (hmember r hr).1
    rw [hD.states_trimmed] at htrimmed
    exact hD.mem_of_mem_reachableStates htrimmed
  · intro r hr s hs hsame
    rw [← (hmember r hr).2, ← (hmember s hs).2, hsame]

/-- Where words tell all states apart, a class is named after its only state. -/
theorem className_eq_ofSet_single (hD : D.WellFormed)
    (hseparated : ∀ p ∈ D.states, ∀ q ∈ D.states, D.Indistinguishable p q → p = q)
    (hq : q ∈ D.states) : className D.indistinguishable q = State.ofSet (.single q) := by
  have hclasses := classifies_indistinguishable hD
  obtain ⟨c, hc, hqc⟩ := hclasses.covers q hq
  have hsingle : c = StateSet.single q := by
    apply Std.ExtTreeSet.ext_mem
    intro r
    rw [hclasses.mem_iff c hc q hqc, StateSet.mem_single]
    constructor
    · intro h
      obtain ⟨hr, hsame⟩ := h
      exact (hseparated q hq r hr hsame).symm
    · rintro rfl
      exact ⟨hq, fun _ => rfl⟩
  rw [hclasses.className_eq hc hqc, hsingle]

/-- The minimal automaton has no unreachable states to leave out. -/
theorem trimmed_minimize (hD : D.WellFormed) : Automaton.trimmed D.minimize = D.minimize := by
  apply (wellFormed_minimize hD).trimmed_eq_self
  intro q hq
  obtain ⟨w, hw⟩ := reached_minimize hD hq
  exact ⟨w, trace_iff.mpr hw⟩

/-- The table of a minimal automaton has no empty rows. -/
theorem canonical_minimize (hD : D.WellFormed) : D.minimize.transitions.Canonical := by
  rw [minimize_eq]
  exact (sound_quotient hD.trimmed (classifies_indistinguishable hD.trimmed)).canonical

/-- Minimizing a minimal automaton puts each state into a class of its own. -/
theorem minimize_minimize (hD : D.WellFormed) : D.minimize.minimize =
    Automaton.rename D.minimize fun q => State.ofSet (.single q) := by
  have hM := wellFormed_minimize hD
  have hmerges : Merges D.minimize D.minimize.minimize
      (className D.minimize.indistinguishable) := by
    have hquotient := merges_minimize hM
    rwa [trimmed_minimize hD] at hquotient
  have hsingle := hmerges.congr hM fun q hq =>
    className_eq_ofSet_single hM (fun p hp q hq => eq_of_indistinguishable_minimize hD hp hq) hq
  exact hsingle.eq_rename State.ofSet_single_injective hM (wellFormed_minimize hM)
    (canonical_minimize hD) (canonical_minimize hM)

/-- Minimizing a well-formed automaton, which may be partial, keeps what is accepted and adds no
states, and leaves states only that some word leads to. Minimizing again gives the same automaton,
in which every state is named as the set of itself alone. -/
theorem minimize_preserves_and_is_idempotent (D : DFA) (hD : D.WellFormed) :
    (∀ w, D.minimize.accepts w = D.accepts w) ∧
    D.minimize.size ≤ D.size ∧
    (∀ q ∈ D.minimize.states, ∃ w, D.minimize.run w = some q) ∧
    D.minimize.minimize = Automaton.rename D.minimize fun q => State.ofSet (.single q) :=
  ⟨accepts_minimize hD, size_minimize_le hD, fun _ hq => reached_minimize hD hq,
    minimize_minimize hD⟩

/-- A dead state stays apart from a state without transitions, though nothing is accepted from
either, and a state that cannot be reached is left out. -/
theorem minimize_minimize_dead_state :
    let D : DFA := ⟨.ofList ["p", "dead", "stuck", "q"], .ofText "ab",
      .ofTriples [("p", 'a', "dead"), ("p", 'b', "stuck"), ("dead", 'a', "dead"),
        ("q", 'a', "p")], "p", .ofList ["p"]⟩
    D.WellFormed ∧ D.minimize.size = 3 ∧ D.minimize.minimize =
      Automaton.rename D.minimize fun q => State.ofSet (.single q) := by
  intro D
  have hD : D.WellFormed := by
    apply wellFormed_ofTriples <;> simp_all [Alphabet.ofText]
    grind
  obtain ⟨-, -, -, hagain⟩ := minimize_preserves_and_is_idempotent D hD
  exact ⟨hD, by decide +kernel, hagain⟩

end DFA

end RegularLanguages
