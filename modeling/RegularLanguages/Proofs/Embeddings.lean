import RegularLanguages.Proofs.Determinism
import RegularLanguages.Proofs.EdgeLists
import RegularLanguages.Proofs.Soundness

/-!
# Embeddings of kinds

A deterministic automaton is read as a nondeterministic one, and this as one with empty moves,
without a change of its parts. Since a sound automaton is the only one of its kind with its parts,
reading it as another kind and back gives the same automaton, whatever way back is taken: looking
through empty moves, of which there are none, changes nothing.
-/

namespace RegularLanguages

/-- Sound automata of one kind with the same parts are the same. -/
theorem Automaton.SameParts.eq {T : Type} [TransitionTable T] [CanonicalTable T]
    {A B : Automaton T} (h : SameParts A B) (hA : A.Sound) (hB : B.Sound) : A = B :=
  hA.eq_of_parts_eq hB h.states_eq h.alphabet_eq
    (fun e => h.moves_iff e.source e.label e.target) h.initial_eq h.finals_eq

open Automaton (SameParts)

namespace AnyAutomaton

/-- An automaton of the kind of its table has the same parts as the automaton, of whatever kind
this one is. -/
def HasParts {T : Type} [TransitionTable T] (A : AnyAutomaton) (B : Automaton T) : Prop :=
  match A with
  | dfa A | nfa A | epsilonNFA A => SameParts A B

variable {A : AnyAutomaton}

namespace HasParts

variable {T : Type} [TransitionTable T] {B B' : Automaton T}

/-- Automata with the same parts list the same states, symbols and transitions. -/
theorem parts_eq [OrderedTransitionTable T] (h : A.HasParts B) :
    B.states = A.states ∧ B.alphabet = A.alphabet ∧ B.edges = A.edges ∧ B.initial = A.initial ∧
      B.finals = A.finals := by
  cases A with
  | dfa A | nfa A | epsilonNFA A =>
    have hparts := SameParts.symm h
    exact ⟨hparts.states_eq, hparts.alphabet_eq, hparts.edges_eq, hparts.initial_eq,
      hparts.finals_eq⟩

/-- Among sound automata of one kind, one at most has the given parts. -/
theorem unique [CanonicalTable T] (h : A.HasParts B) (h' : A.HasParts B') (hB : B.Sound)
    (hB' : B'.Sound) : B = B' := by
  cases A with
  | dfa A | nfa A | epsilonNFA A => exact ((SameParts.symm h).trans h').eq hB hB'

end HasParts

/-- An automaton is deterministic if its transitions show it. -/
theorem isDeterministic_iff : A.IsDeterministic ↔ (∀ e ∈ A.edges, e.label ≠ .epsilon) ∧
    ∀ p a q r, ⟨p, .symbol a, q⟩ ∈ A.edges → ⟨p, .symbol a, r⟩ ∈ A.edges → q = r := by
  cases A with
  | dfa A | nfa A | epsilonNFA A =>
    constructor
    · intro h
      refine ⟨fun e he hempty => h.not_moves_epsilon e.source e.target ?_, h.moves_unique⟩
      exact hempty ▸ he
    · intro h
      exact ⟨fun p q hmove => h.1 _ hmove rfl, h.2⟩

/-- An automaton is read as a deterministic one exactly if it is deterministic. -/
theorem exists_asDeterministic?_iff (hA : A.WellFormed) :
    (∃ D, A.asDeterministic? = some D) ↔ A.IsDeterministic := by
  constructor
  · rintro ⟨D, hD⟩
    exact (readAs_of_asDeterministic? hA hD).isDeterministic
  · intro h
    obtain ⟨D, hD, -⟩ := h.exists_asDeterministic? hA
    exact ⟨D, hD⟩

/-- A sound automaton of any kind is well-formed. -/
theorem Sound.wellFormed (hA : A.Sound) : A.WellFormed := by
  cases A <;> exact hA.toWellFormed

/-- The deterministic automaton as which an automaton is read is the sound one with its parts. -/
theorem asDeterministic?_eq_some_iff (hA : A.Sound) {D : DFA} :
    A.asDeterministic? = some D ↔ D.Sound ∧ A.HasParts D := by
  constructor
  · intro h
    exact ⟨sound_of_asDeterministic? hA h, readAs_of_asDeterministic? hA.wellFormed h⟩
  · rintro ⟨hD, hparts⟩
    have hdeterministic : A.IsDeterministic := ReadAs.isDeterministic hparts
    obtain ⟨D', hD', hparts'⟩ := hdeterministic.exists_asDeterministic? hA.wellFormed
    rw [hD', hparts.unique hparts' hD (sound_of_asDeterministic? hA hD')]

/-- Without empty moves, the automaton that looks through them has the same parts. -/
theorem hasParts_toNFA (hA : A.WellFormed) (hempty : ∀ e ∈ A.edges, e.label ≠ .epsilon) :
    A.HasParts A.toNFA := by
  cases A with
  | dfa D => exact D.sameParts_toNFA
  | nfa N => exact .refl N
  | epsilonNFA E => exact EpsilonNFA.sameParts_toNFA hA fun p q hmove => hempty _ hmove rfl

/-- The automaton with empty moves that an automaton is read as has the same parts. -/
theorem hasParts_toEpsilonNFA (A : AnyAutomaton) : A.HasParts A.toEpsilonNFA := by
  cases A with
  | dfa D => exact D.sameParts_toEpsilonNFA
  | nfa N => exact N.sameParts_toEpsilonNFA
  | epsilonNFA E => exact .refl E

/-- An automaton is read as a deterministic one exactly if no transition is empty and no two lead
from one state over one symbol, and then as one with the same parts. Embedded into another kind and
read back, a sound automaton is what it was. -/
theorem embeddings_are_read_back :
    (∀ A : AnyAutomaton, A.WellFormed →
      ((∃ D, A.asDeterministic? = some D) ↔ (∀ e ∈ A.edges, e.label ≠ .epsilon) ∧
        ∀ p a q r, ⟨p, .symbol a, q⟩ ∈ A.edges → ⟨p, .symbol a, r⟩ ∈ A.edges → q = r) ∧
      ∀ D, A.asDeterministic? = some D →
        D.states = A.states ∧ D.alphabet = A.alphabet ∧ D.edges = A.edges ∧
        D.initial = A.initial ∧ D.finals = A.finals) ∧
    (∀ D : DFA, D.Sound →
      D.toNFA.asDeterministic? = some D ∧ D.toEpsilonNFA.asDeterministic? = some D) ∧
    ∀ N : NFA, N.Sound → N.toEpsilonNFA.toNFA = N := by
  refine ⟨fun A hA => ⟨?_, fun D hD => ?_⟩, fun D hD => ⟨?_, ?_⟩, fun N hN => ?_⟩
  · exact (exists_asDeterministic?_iff hA).trans isDeterministic_iff
  · exact HasParts.parts_eq (readAs_of_asDeterministic? hA hD)
  · exact (asDeterministic?_eq_some_iff (A := D.toNFA) (DFA.sound_toNFA hD)).mpr
      ⟨hD, D.sameParts_toNFA.symm⟩
  · exact (asDeterministic?_eq_some_iff (A := D.toEpsilonNFA) (DFA.sound_toEpsilonNFA hD)).mpr
      ⟨hD, D.sameParts_toEpsilonNFA.symm⟩
  · have hparts := N.sameParts_toEpsilonNFA
    have hE : N.toEpsilonNFA.Sound := NFA.sound_toEpsilonNFA hN
    have hempty (p q : State) : ¬N.toEpsilonNFA.Moves p .epsilon q :=
      fun hmove => NFA.not_moves_epsilon ((hparts.moves_iff p _ q).mpr hmove)
    have hback := EpsilonNFA.sameParts_toNFA hE.toWellFormed hempty
    exact (hparts.trans hback).symm.eq (EpsilonNFA.sound_toNFA hE) hN

/-- The automaton of a single word, one with a choice between two states and one with an empty move.
The first two are read back from the kinds that they are embedded into, and the transitions of the
first are those of its embedding. The other two cannot be read as deterministic ones. -/
theorem embeddings_of_word_choice_and_empty_move :
    let D : DFA :=
      ⟨.ofList ["p", "q"], .ofText "ab", .ofTriples [("p", 'a', "q")], "p", .ofList ["q"]⟩
    let N : NFA := ⟨.ofList ["p", "q"], .ofText "ab",
      .ofTriples [("p", 'a', "p"), ("p", 'a', "q"), ("q", 'b', "p")], "p", .ofList ["q"]⟩
    let E : EpsilonNFA := ⟨.ofList ["p", "q"], .ofText "ab",
      .ofTriples [("p", .symbol 'a', "q"), ("q", .epsilon, "p")], "p", .ofList ["q"]⟩
    (D.Sound ∧ D.toNFA.asDeterministic? = some D ∧ D.toEpsilonNFA.asDeterministic? = some D ∧
      D.edges = D.toEpsilonNFA.edges) ∧
    (N.Sound ∧ N.toEpsilonNFA.toNFA = N ∧ ¬∃ M, (nfa N).asDeterministic? = some M) ∧
    WellFormed E ∧ ¬∃ M, (epsilonNFA E).asDeterministic? = some M := by
  intro D N E
  have hpartsD : Automaton.ofParts ["p", "q"] (.ofText "ab") D.edges "p" ["q"] = .ok D := by
    decide +kernel
  have hpartsN : Automaton.ofParts ["p", "q"] (.ofText "ab") N.edges "p" ["q"] = .ok N := by
    decide +kernel
  have hpartsE : Automaton.ofParts ["p", "q"] (.ofText "ab") E.edges "p" ["q"] = .ok E := by
    decide +kernel
  have hD : D.Sound := Automaton.sound_of_ofParts hpartsD
  have hN : N.Sound := Automaton.sound_of_ofParts hpartsN
  have hE : WellFormed E := (Automaton.sound_of_ofParts hpartsE).toWellFormed
  obtain ⟨hread, hdeterministic, hnondeterministic⟩ := embeddings_are_read_back
  obtain ⟨hfromNFA, hfromEpsilonNFA⟩ := hdeterministic D hD
  have hembedded : WellFormed D.toEpsilonNFA := (DFA.sound_toEpsilonNFA hD).toWellFormed
  obtain ⟨-, -, hedges, -, -⟩ := (hread D.toEpsilonNFA hembedded).2 D hfromEpsilonNFA
  have hchoice : ¬∃ M, (nfa N).asDeterministic? = some M := by
    rw [(hread N hN.toWellFormed).1]
    rintro ⟨-, hone⟩
    have hsame : (("p" : State) = "q") :=
      hone "p" 'a' "p" "q" (by decide +kernel) (by decide +kernel)
    exact absurd hsame (by decide)
  have hmove : ¬∃ M, (epsilonNFA E).asDeterministic? = some M := by
    rw [(hread E hE).1]
    rintro ⟨hnone, -⟩
    exact hnone ⟨"q", .epsilon, "p"⟩ (by decide +kernel) rfl
  exact ⟨⟨hD, hfromNFA, hfromEpsilonNFA, hedges⟩, ⟨hN, hnondeterministic N hN, hchoice⟩, hE, hmove⟩

end AnyAutomaton

end RegularLanguages
