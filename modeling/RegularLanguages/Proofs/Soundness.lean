import RegularLanguages.Proofs.Canonical
import RegularLanguages.Proofs.Complements
import RegularLanguages.Proofs.Outcomes

/-!
# Conversions make sound automata

A sound automaton mentions what it declares only, and stores its transitions in the only way there
is. Constructions fill their tables by adding transitions, or change the table of an automaton that
is sound, so that it remains to see what the transitions mention.
-/

namespace RegularLanguages

open Automaton (SameParts)

namespace DFA

variable {D : DFA}

/-- A sound deterministic automaton is sound as a nondeterministic one. -/
theorem sound_toNFA (hD : D.Sound) : D.toNFA.Sound :=
  ⟨D.sameParts_toNFA.wellFormed hD.toWellFormed, EdgeTable.canonical_ofTriples _⟩

/-- A sound deterministic automaton is sound as one with empty moves. -/
theorem sound_toEpsilonNFA (hD : D.Sound) : D.toEpsilonNFA.Sound :=
  ⟨D.sameParts_toEpsilonNFA.wellFormed hD.toWellFormed, EdgeTable.canonical_ofTriples _⟩

/-- Completing a sound deterministic automaton makes a sound one. -/
theorem sound_complete (hD : D.Sound) : D.complete.Sound where
  toWellFormed := wellFormed_complete hD.toWellFormed
  canonical := by
    rw [complete]
    split
    · exact hD.canonical
    · exact DeterministicTable.Canonical.putAll hD.canonical _

/-- The complement of a sound deterministic automaton is sound. -/
theorem sound_complement (hD : D.Sound) : D.complement.Sound :=
  ⟨wellFormed_complement hD.toWellFormed, (sound_complete hD).canonical⟩

/-- Merging the states of the classes of a partition makes an automaton sound. -/
theorem sound_quotient (hD : D.WellFormed) {P : Partition State}
    (hP : Classifies D.Indistinguishable D.states P) : (D.quotient P).Sound where
  toWellFormed := wellFormed_quotient hD hP
  canonical := DeterministicTable.canonical_ofTriples (D.classTriples P)

/-- The minimal automaton of a sound one is sound. -/
theorem sound_minimize (hD : D.Sound) : D.minimize.Sound := by
  have hR := hD.toWellFormed.trimmed
  rw [minimize_eq]
  exact sound_quotient hR (classifies_indistinguishable hR)

end DFA

namespace NFA

variable {N : NFA}

/-- A sound nondeterministic automaton is sound as one with empty moves. -/
theorem sound_toEpsilonNFA (hN : N.Sound) : N.toEpsilonNFA.Sound :=
  ⟨N.sameParts_toEpsilonNFA.wellFormed hN.toWellFormed, EdgeTable.canonical_ofTriples _⟩

/-- Transitions that find their places free are put into the table. -/
theorem canonical_of_singleSuccessors {ts : List (State × Symbol × State)}
    {t u : DeterministicTable} (ht : t.Canonical) (h : singleSuccessors? t ts = some u) :
    u.Canonical := by
  induction ts generalizing t with
  | nil =>
    obtain rfl := Option.some.inj h
    exact ht
  | cons triple ts ih =>
    obtain ⟨p, a, q⟩ := triple
    rw [singleSuccessors?] at h
    split at h
    · exact ih (ht.put p a q) h
    · contradiction

/-- The deterministic automaton that is read off a sound nondeterministic one is sound. -/
theorem sound_of_asDeterministic? (hN : N.Sound) {D : DFA} (h : N.asDeterministic? = some D) :
    D.Sound where
  toWellFormed := (sameParts_of_asDeterministic? h).wellFormed hN.toWellFormed
  canonical := by
    obtain ⟨table, htable, rfl⟩ := Option.map_eq_some_iff.mp h
    exact canonical_of_singleSuccessors DeterministicTable.canonical_empty htable

/-- The subset construction makes a sound automaton of a sound one. -/
theorem sound_determinize (hN : N.Sound) : N.determinize.Sound :=
  ⟨(determinize_spec hN.toWellFormed).1, DeterministicTable.canonical_ofTriples _⟩

end NFA

namespace EpsilonNFA

variable {E : EpsilonNFA}

/-- A sound automaton with empty moves is sound when they are looked through. -/
theorem sound_toNFA (hE : E.Sound) : E.toNFA.Sound :=
  ⟨wellFormed_toNFA hE.toWellFormed, EdgeTable.canonical_ofTriples _⟩

/-- The subset construction through closures makes a sound automaton of a sound one. -/
theorem sound_determinize (hE : E.Sound) : E.determinize.Sound :=
  ⟨(determinize_spec hE.toWellFormed).1, DeterministicTable.canonical_ofTriples _⟩

/-- A sound automaton with empty moves makes a sound deterministic one, by way of one without empty
moves. -/
theorem sound_toDFA (hE : E.Sound) : E.toDFA.Sound := NFA.sound_determinize (sound_toNFA hE)

/-- The deterministic automaton that is read off a sound one with empty moves is sound. -/
theorem sound_of_asDeterministic? (hE : E.Sound) {D : DFA} (h : E.asDeterministic? = some D) :
    D.Sound := by
  unfold asDeterministic? at h
  split at h
  · contradiction
  · exact NFA.sound_of_asDeterministic? (sound_toNFA hE) h

end EpsilonNFA

namespace AnyAutomaton

/-- The automaton is well-formed, and its table is the only one for its transitions. -/
def Sound : AnyAutomaton → Prop
  | dfa A | nfa A | epsilonNFA A => A.Sound

variable {A B : AnyAutomaton}

/-- A sound automaton of any kind is sound as one without empty moves. -/
theorem sound_toNFA (hA : A.Sound) : A.toNFA.Sound := by
  cases A with
  | dfa D => exact DFA.sound_toNFA hA
  | nfa N => exact hA
  | epsilonNFA E => exact EpsilonNFA.sound_toNFA hA

/-- A sound automaton of any kind makes a sound deterministic one. -/
theorem sound_toDFA (hA : A.Sound) : A.toDFA.Sound := by
  cases A with
  | dfa D => exact hA
  | nfa N => exact NFA.sound_determinize hA
  | epsilonNFA E => exact EpsilonNFA.sound_toDFA hA

/-- A sound automaton of any kind is sound as one with empty moves. -/
theorem sound_toEpsilonNFA (hA : A.Sound) : A.toEpsilonNFA.Sound := by
  cases A with
  | dfa D => exact DFA.sound_toEpsilonNFA hA
  | nfa N => exact NFA.sound_toEpsilonNFA hA
  | epsilonNFA E => exact hA

/-- A sound automaton of any kind is sound as one of any other kind. -/
theorem sound_toKind (hA : A.Sound) (kind : Kind) : (A.toKind kind).Sound := by
  cases kind with
  | dfa => exact sound_toDFA hA
  | nfa => exact sound_toNFA hA
  | epsilonNFA => exact sound_toEpsilonNFA hA

/-- The deterministic automaton that is read off a sound one of any kind is sound. -/
theorem sound_of_asDeterministic? (hA : A.Sound) {D : DFA} (h : A.asDeterministic? = some D) :
    D.Sound := by
  cases A with
  | dfa D' =>
    obtain rfl := Option.some.inj h
    exact hA
  | nfa N => exact NFA.sound_of_asDeterministic? hA h
  | epsilonNFA E => exact EpsilonNFA.sound_of_asDeterministic? hA h

/-- A sound automaton of any kind is sound without its unreachable states. -/
theorem sound_trimmed (hA : A.Sound) : A.trimmed.Sound := by
  cases A <;> exact Automaton.Sound.trimmed hA

/-- A sound automaton of any kind is sound over a larger alphabet. -/
theorem sound_extendAlphabet (hA : A.Sound) (alphabet : Alphabet) :
    (A.extendAlphabet alphabet).Sound := by
  cases A <;> exact Automaton.Sound.extendAlphabet hA alphabet

/-- Sound automata of one kind are equal if their parts are. -/
theorem Sound.eq_of_parts_eq (hA : A.Sound) (hB : B.Sound) (hkind : A.kind = B.kind)
    (hstates : A.states = B.states) (halphabet : A.alphabet = B.alphabet)
    (hedges : ∀ e, e ∈ A.edges ↔ e ∈ B.edges) (hinitial : A.initial = B.initial)
    (hfinals : A.finals = B.finals) : A = B := by
  cases A with
  | dfa D =>
    cases B with
    | dfa D' =>
      exact congrArg dfa
        (Automaton.Sound.eq_of_parts_eq hA hB hstates halphabet hedges hinitial hfinals)
    | nfa | epsilonNFA => contradiction
  | nfa N =>
    cases B with
    | nfa N' =>
      exact congrArg nfa
        (Automaton.Sound.eq_of_parts_eq hA hB hstates halphabet hedges hinitial hfinals)
    | dfa | epsilonNFA => contradiction
  | epsilonNFA E =>
    cases B with
    | epsilonNFA E' =>
      exact congrArg epsilonNFA
        (Automaton.Sound.eq_of_parts_eq hA hB hstates halphabet hedges hinitial hfinals)
    | dfa | nfa => contradiction

/-- In a sound automaton, transitions lead from states to states, over a symbol of the alphabet or,
with empty moves, over nothing. -/
theorem Sound.of_mem_edges (hA : A.Sound) {e : Edge} (he : e ∈ A.edges) :
    e.source ∈ A.states ∧ e.target ∈ A.states ∧
      ((∃ a ∈ A.alphabet, e.label = .symbol a) ∨ (e.label = .epsilon ∧ A.kind = .epsilonNFA)) := by
  obtain ⟨p, l, q⟩ := e
  cases A with
  | dfa D =>
    obtain ⟨a, rfl, -⟩ := DFA.moves_iff.mp he
    exact ⟨hA.source_mem p _ q he, hA.target_mem p _ q he, .inl ⟨a, hA.symbol_mem p a q he, rfl⟩⟩
  | nfa N =>
    obtain ⟨a, rfl, -⟩ := NFA.moves_iff.mp he
    exact ⟨hA.source_mem p _ q he, hA.target_mem p _ q he, .inl ⟨a, hA.symbol_mem p a q he, rfl⟩⟩
  | epsilonNFA E =>
    refine ⟨hA.source_mem p l q he, hA.target_mem p l q he, ?_⟩
    cases l with
    | epsilon => exact .inr ⟨rfl, rfl⟩
    | symbol a => exact .inl ⟨a, hA.symbol_mem p a q he, rfl⟩

/-- The initial state of a sound automaton of any kind is declared. -/
theorem Sound.initial_mem (hA : A.Sound) : A.initial ∈ A.states := by
  cases A <;> exact Automaton.WellFormed.initial_mem hA.toWellFormed

/-- The final states of a sound automaton of any kind are declared. -/
theorem Sound.finals_subset (hA : A.Sound) : ∀ q ∈ A.finals, q ∈ A.states := by
  cases A <;> exact Automaton.WellFormed.finals_subset hA.toWellFormed

/-- No row of the table and no set of targets in it is empty. -/
def NoEmptyPart : AnyAutomaton → Prop
  | dfa D => D.transitions.Canonical
  | nfa N => N.transitions.Canonical
  | epsilonNFA E => E.transitions.Canonical

/-- The table of a sound automaton of any kind has no empty part. -/
theorem Sound.noEmptyPart (hA : A.Sound) : A.NoEmptyPart := by
  cases A <;> exact Automaton.Sound.canonical hA

end AnyAutomaton

end RegularLanguages
