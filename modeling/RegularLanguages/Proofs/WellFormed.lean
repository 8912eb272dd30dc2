import RegularLanguages.Proofs.Acceptance

/-!
# Well-formed automata

In a well-formed automaton the initial state, the final states and the ends of all transitions are
states, and all symbols of transitions belong to the alphabet. Traces from a state then stay among
the states and spell words over the alphabet, and the states which cannot be reached may be left
out.
-/

namespace RegularLanguages

/-- A table whose transitions are those that are added, as far as restricting keeps both their
ends. -/
class LawfulTransitionTable (T : Type) [TransitionTable T] : Prop where
  notMem_edges_empty : ∀ e, e ∉ TransitionTable.edges (TransitionTable.empty : T)
  mem_edges_insert : ∀ {t u : T} {e : Edge}, TransitionTable.insert t e = .ok u →
    ∀ e', e' ∈ TransitionTable.edges u ↔ e' = e ∨ e' ∈ TransitionTable.edges t
  mem_edges_restrict : ∀ (t : T) (keep : State → Bool) (p : State) (l : Label) (q : State),
    ⟨p, l, q⟩ ∈ TransitionTable.edges (TransitionTable.restrict t keep) ↔
      ⟨p, l, q⟩ ∈ TransitionTable.edges t ∧ keep p = true ∧ keep q = true

instance : LawfulTransitionTable DeterministicTable where
  notMem_edges_empty e := by
    obtain ⟨p, l, q⟩ := e
    simp [DeterministicTable.mem_edges, TransitionTable.empty]
  mem_edges_insert {t u e} h e' := by
    obtain ⟨p, l, q⟩ := e
    obtain ⟨p', l', q'⟩ := e'
    obtain ⟨a, rfl, hsame, rfl⟩ := DeterministicTable.of_insert_eq_ok h
    simp only [DeterministicTable.mem_edges, DeterministicTable.successor?_put, Edge.mk.injEq]
    constructor
    · intro hmem
      obtain ⟨b, rfl, hmem⟩ := hmem
      split at hmem
      · rename_i hplace
        obtain ⟨rfl, rfl⟩ := hplace
        exact .inl ⟨rfl, rfl, (Option.some.inj hmem).symm⟩
      · exact .inr ⟨b, rfl, hmem⟩
    · intro hmem
      rcases hmem with ⟨rfl, rfl, rfl⟩ | ⟨b, rfl, hmem⟩
      · exact ⟨a, rfl, by simp⟩
      · refine ⟨b, rfl, ?_⟩
        split
        · rename_i hplace
          obtain ⟨rfl, rfl⟩ := hplace
          rw [hsame q' hmem]
        · exact hmem
  mem_edges_restrict t keep p l q := by
    simp only [TransitionTable.restrict, DeterministicTable.mem_edges,
      DeterministicTable.successor?_restrict]
    constructor
    · intro h
      obtain ⟨a, rfl, h⟩ := h
      by_cases hp : keep p
      · rw [if_pos hp, Option.filter_eq_some_iff] at h
        exact ⟨⟨a, rfl, h.1⟩, hp, h.2⟩
      · simp [hp] at h
    · intro h
      obtain ⟨⟨a, rfl, h⟩, hp, hq⟩ := h
      exact ⟨a, rfl, by rw [if_pos hp, Option.filter_eq_some_iff]; exact ⟨h, hq⟩⟩

instance : LawfulTransitionTable NondeterministicTable where
  notMem_edges_empty e := by
    obtain ⟨p, l, q⟩ := e
    simp [NondeterministicTable.mem_edges, TransitionTable.empty]
  mem_edges_insert {t u e} h e' := by
    obtain ⟨p, l, q⟩ := e
    obtain ⟨p', l', q'⟩ := e'
    obtain ⟨a, rfl, rfl⟩ := NondeterministicTable.of_insert_eq_ok h
    simp only [NondeterministicTable.mem_edges, EdgeTable.mem_successors_add, Edge.mk.injEq]
    constructor
    · intro h
      obtain ⟨b, rfl, ⟨rfl, rfl, rfl⟩ | h⟩ := h
      · exact .inl ⟨rfl, rfl, rfl⟩
      · exact .inr ⟨b, rfl, h⟩
    · intro h
      rcases h with ⟨rfl, rfl, rfl⟩ | ⟨b, rfl, h⟩
      · exact ⟨a, rfl, .inl ⟨rfl, rfl, rfl⟩⟩
      · exact ⟨b, rfl, .inr h⟩
  mem_edges_restrict t keep p l q := by
    simp only [TransitionTable.restrict, NondeterministicTable.mem_edges,
      EdgeTable.mem_successors_restrict]
    constructor
    · intro h
      obtain ⟨a, rfl, h, hp, hq⟩ := h
      exact ⟨⟨a, rfl, h⟩, hp, hq⟩
    · intro h
      obtain ⟨⟨a, rfl, h⟩, hp, hq⟩ := h
      exact ⟨a, rfl, h, hp, hq⟩

instance : LawfulTransitionTable EpsilonTable where
  notMem_edges_empty e := by
    obtain ⟨p, l, q⟩ := e
    simp [EpsilonTable.mem_edges, TransitionTable.empty]
  mem_edges_insert {t u e} h e' := by
    obtain ⟨p, l, q⟩ := e
    obtain ⟨p', l', q'⟩ := e'
    obtain rfl := Except.ok.inj h
    simp only [EpsilonTable.mem_edges, EdgeTable.mem_successors_add, Edge.mk.injEq]
  mem_edges_restrict t keep p l q := by
    simp only [TransitionTable.restrict, EpsilonTable.mem_edges, EdgeTable.mem_successors_restrict]

namespace Automaton

variable {T : Type} [TransitionTable T]

/-- All states and symbols that an automaton mentions are declared. -/
structure WellFormed (A : Automaton T) : Prop where
  initial_mem : A.initial ∈ A.states
  finals_subset : ∀ q ∈ A.finals, q ∈ A.states
  source_mem : ∀ p l q, A.Moves p l q → p ∈ A.states
  target_mem : ∀ p l q, A.Moves p l q → q ∈ A.states
  symbol_mem : ∀ p a q, A.Moves p (.symbol a) q → a ∈ A.alphabet

variable {A : Automaton T}

/-- A trace from a state leads to states. -/
theorem WellFormed.mem_of_trace (h : A.WellFormed) {p q : State} {w : Word} (hp : p ∈ A.states)
    (htrace : Trace A.Moves p w q) : q ∈ A.states := by
  have hstays : ∀ p l q, p ∈ A.states → A.Moves p l q → q ∈ A.states ∧ A.Moves p l q :=
    fun p l q _ hmove => ⟨h.target_mem p l q hmove, hmove⟩
  exact (htrace.confined (· ∈ A.states) hstays hp).1

/-- A trace spells a word over the alphabet. -/
theorem WellFormed.symbol_mem_of_trace (h : A.WellFormed) {p q : State} {w : Word}
    (htrace : Trace A.Moves p w q) : ∀ a ∈ w, a ∈ A.alphabet := by
  induction htrace with
  | refl => simp
  | epsilon _ _ ih => exact ih
  | symbol hstep _ ih =>
    intro b h
    rcases h with _ | ⟨_, hb⟩
    · exact h.symbol_mem _ _ _ hstep
    · exact ih b hb

/-- Reachable states are states. -/
theorem WellFormed.mem_of_mem_reachableStates (h : A.WellFormed) {q : State}
    (hq : q ∈ A.reachableStates) : q ∈ A.states := by
  obtain ⟨w, htrace⟩ := mem_reachableStates.mp hq
  exact h.mem_of_trace h.initial_mem htrace

/-- Moves lead from reachable states to reachable states. -/
theorem mem_reachableStates_of_moves {p q : State} {l : Label} (hp : p ∈ A.reachableStates)
    (hmove : A.Moves p l q) : q ∈ A.reachableStates := by
  obtain ⟨w, htrace⟩ := mem_reachableStates.mp hp
  cases l with
  | epsilon => exact mem_reachableStates.mpr ⟨w, htrace.snoc_epsilon hmove⟩
  | symbol a =>
    exact mem_reachableStates.mpr ⟨w ++ [a], htrace.append (.symbol hmove (.refl q))⟩

/-- The initial state can be reached. -/
theorem initial_mem_reachableStates : A.initial ∈ A.reachableStates :=
  mem_reachableStates.mpr ⟨[], .refl _⟩

/-- Taking unreachable states away leaves the initial state alone. -/
@[simp] theorem initial_trimmed : A.trimmed.initial = A.initial := by
  rw [trimmed]
  split <;> rfl

/-- Taking unreachable states away leaves the alphabet alone. -/
@[simp] theorem alphabet_trimmed : A.trimmed.alphabet = A.alphabet := by
  rw [trimmed]
  split <;> rfl

/-- If as many states are reachable as there are states, then all states are reachable. -/
theorem WellFormed.reachableStates_eq (h : A.WellFormed)
    (hsize : A.reachableStates.size = A.states.size) : A.reachableStates = A.states :=
  FiniteSet.eq_of_subset_of_size_le (fun _ hq => h.mem_of_mem_reachableStates hq) hsize.ge

/-- The states that are kept are those that can be reached. -/
theorem WellFormed.states_trimmed (h : A.WellFormed) : A.trimmed.states = A.reachableStates := by
  by_cases hsize : A.reachableStates.size = A.states.size
  · rw [trimmed, if_pos hsize, h.reachableStates_eq hsize]
  · rw [trimmed, if_neg hsize]
    rfl

/-- A well-formed automaton all states of which can be reached stays as it is. -/
theorem WellFormed.trimmed_eq_self (h : A.WellFormed)
    (hreached : ∀ q ∈ A.states, ∃ w, Trace A.Moves A.initial w q) : A.trimmed = A := by
  have hstates : A.reachableStates = A.states := by
    apply Std.ExtTreeSet.ext_mem
    intro q
    exact ⟨h.mem_of_mem_reachableStates, fun hq => mem_reachableStates.mpr (hreached q hq)⟩
  rw [Automaton.trimmed, if_pos (by rw [hstates])]

/-- The final states that are kept are those that can be reached. -/
theorem WellFormed.mem_finals_trimmed (h : A.WellFormed) {q : State} :
    q ∈ A.trimmed.finals ↔ q ∈ A.finals ∧ q ∈ A.reachableStates := by
  by_cases hsize : A.reachableStates.size = A.states.size
  · rw [trimmed, if_pos hsize, h.reachableStates_eq hsize]
    exact (and_iff_left_of_imp (h.finals_subset q)).symm
  · rw [trimmed, if_neg hsize, restrict, FiniteSet.mem_filter, Std.ExtTreeSet.contains_iff_mem]

/-- A larger alphabet keeps an automaton well-formed. -/
theorem WellFormed.extendAlphabet (h : A.WellFormed) (alphabet : Alphabet) :
    (A.extendAlphabet alphabet).WellFormed where
  initial_mem := h.initial_mem
  finals_subset := h.finals_subset
  source_mem := h.source_mem
  target_mem := h.target_mem
  symbol_mem p a q hmove := Std.ExtTreeSet.mem_union_iff.mpr (.inl (h.symbol_mem p a q hmove))

variable [LawfulTransitionTable T]

/-- The moves that are kept are those between states that are kept. -/
theorem moves_restrict {states : StateSet} {p q : State} {l : Label} :
    (A.restrict states).Moves p l q ↔ A.Moves p l q ∧ p ∈ states ∧ q ∈ states := by
  simp only [Moves, edges, restrict, LawfulTransitionTable.mem_edges_restrict,
    Std.ExtTreeSet.contains_iff_mem]

/-- The moves that are kept are those from reachable states. -/
theorem WellFormed.moves_trimmed (h : A.WellFormed) {p q : State} {l : Label} :
    A.trimmed.Moves p l q ↔ A.Moves p l q ∧ p ∈ A.reachableStates := by
  by_cases hsize : A.reachableStates.size = A.states.size
  · rw [trimmed, if_pos hsize, h.reachableStates_eq hsize]
    exact (and_iff_left_of_imp (h.source_mem p l q)).symm
  · rw [trimmed, if_neg hsize, moves_restrict]
    constructor
    · intro h
      obtain ⟨hmove, hp, -⟩ := h
      exact ⟨hmove, hp⟩
    · intro h
      obtain ⟨hmove, hp⟩ := h
      exact ⟨hmove, hp, mem_reachableStates_of_moves hp hmove⟩

/-- Leaving out unreachable states keeps an automaton well-formed. -/
theorem WellFormed.trimmed (h : A.WellFormed) : A.trimmed.WellFormed where
  initial_mem := by
    rw [h.states_trimmed, initial_trimmed]
    exact initial_mem_reachableStates
  finals_subset q hq := by
    rw [h.states_trimmed]
    exact (h.mem_finals_trimmed.mp hq).2
  source_mem p l q hmove := by
    rw [h.states_trimmed]
    exact (h.moves_trimmed.mp hmove).2
  target_mem p l q hmove := by
    obtain ⟨hmove, hp⟩ := h.moves_trimmed.mp hmove
    rw [h.states_trimmed]
    exact mem_reachableStates_of_moves hp hmove
  symbol_mem p a q hmove := by
    rw [alphabet_trimmed]
    exact h.symbol_mem p a q (h.moves_trimmed.mp hmove).1

/-- From the initial state, the traces are the same without the unreachable states. -/
theorem WellFormed.trace_trimmed (h : A.WellFormed) {q : State} {w : Word} :
    Trace A.trimmed.Moves A.initial w q ↔ Trace A.Moves A.initial w q := by
  constructor
  · exact Trace.mono fun p l q hmove => (h.moves_trimmed.mp hmove).1
  · intro htrace
    refine (htrace.confined (· ∈ A.reachableStates) ?_ initial_mem_reachableStates).2
    intro p l q hp hmove
    exact ⟨mem_reachableStates_of_moves hp hmove, h.moves_trimmed.mpr ⟨hmove, hp⟩⟩

/-- All states that are kept can be reached. -/
theorem WellFormed.exists_trace_trimmed (h : A.WellFormed) {q : State}
    (hq : q ∈ A.trimmed.states) : ∃ w, Trace A.trimmed.Moves A.trimmed.initial w q := by
  rw [h.states_trimmed] at hq
  obtain ⟨w, htrace⟩ := mem_reachableStates.mp hq
  exact ⟨w, by rw [initial_trimmed, h.trace_trimmed]; exact htrace⟩

/-- Unreachable states do not matter for what is recognized. -/
theorem WellFormed.recognizes_trimmed (h : A.WellFormed) {w : Word} :
    A.trimmed.Recognizes w ↔ A.Recognizes w := by
  simp only [Recognizes, initial_trimmed, h.trace_trimmed, h.mem_finals_trimmed]
  constructor
  · intro h
    obtain ⟨q, ⟨hq, -⟩, htrace⟩ := h
    exact ⟨q, hq, htrace⟩
  · intro h
    obtain ⟨q, hq, htrace⟩ := h
    exact ⟨q, ⟨hq, mem_reachableStates.mpr ⟨w, htrace⟩⟩, htrace⟩

end Automaton

namespace DFA

variable {D : DFA} {p q : State} {a : Symbol}

/-- A state of a well-formed automaton that has a successor is declared. -/
theorem source_mem (hD : D.WellFormed) (h : D.successor? p a = some q) : p ∈ D.states :=
  hD.source_mem p (.symbol a) q (moves_symbol.mpr h)

/-- A symbol that leads anywhere in a well-formed automaton belongs to the alphabet. -/
theorem symbol_mem (hD : D.WellFormed) (h : D.successor? p a = some q) : a ∈ D.alphabet :=
  hD.symbol_mem p a q (moves_symbol.mpr h)

/-- A successor in a well-formed automaton is declared. -/
theorem successor_mem (hD : D.WellFormed) (h : D.successor? p a = some q) : q ∈ D.states :=
  hD.target_mem p (.symbol a) q (moves_symbol.mpr h)

/-- No state has a successor on a symbol that is not in the alphabet. -/
theorem successor?_of_foreign (hD : D.WellFormed) (ha : a ∉ D.alphabet) :
    D.successor? q a = none := by
  rw [Option.eq_none_iff_forall_ne_some]
  exact fun r hr => ha (symbol_mem hD hr)

/-- A deterministic automaton is well-formed if its initial and final states are states and its
symbols lead from states to states. -/
theorem wellFormed_of_successor? (hinitial : D.initial ∈ D.states)
    (hfinals : ∀ q ∈ D.finals, q ∈ D.states) (hsuccessor : ∀ {p a q},
      D.successor? p a = some q → p ∈ D.states ∧ a ∈ D.alphabet ∧ q ∈ D.states) :
    D.WellFormed := by
  refine ⟨hinitial, hfinals, ?_, ?_, ?_⟩
  · intro p l q hmove
    obtain ⟨a, rfl, h⟩ := moves_iff.mp hmove
    exact (hsuccessor h).1
  · intro p l q hmove
    obtain ⟨a, rfl, h⟩ := moves_iff.mp hmove
    exact (hsuccessor h).2.2
  · intro p a q hmove
    exact (hsuccessor (moves_symbol.mp hmove)).2.1

/-- An automaton made of transitions is well-formed if all that they mention is declared. -/
theorem wellFormed_ofTriples {states finals : StateSet} {alphabet : Alphabet}
    {ts : List (State × Symbol × State)} {initial : State} (hinitial : initial ∈ states)
    (hfinals : ∀ q ∈ finals, q ∈ states)
    (htriples : ∀ p a q, (p, a, q) ∈ ts → p ∈ states ∧ a ∈ alphabet ∧ q ∈ states) :
    Automaton.WellFormed (⟨states, alphabet, .ofTriples ts, initial, finals⟩ : DFA) :=
  wellFormed_of_successor? hinitial hfinals fun h =>
    htriples _ _ _ (DeterministicTable.mem_of_successor?_ofTriples h)

end DFA

namespace NFA

variable {N : NFA}

/-- A nondeterministic automaton is well-formed if its initial and final states are states and its
symbols lead from states to states. -/
theorem wellFormed_of_successors (hinitial : N.initial ∈ N.states)
    (hfinals : ∀ q ∈ N.finals, q ∈ N.states) (hsuccessors : ∀ {p a q},
      q ∈ N.successors p a → p ∈ N.states ∧ a ∈ N.alphabet ∧ q ∈ N.states) : N.WellFormed := by
  refine ⟨hinitial, hfinals, ?_, ?_, ?_⟩
  · intro p l q hmove
    obtain ⟨a, rfl, h⟩ := moves_iff.mp hmove
    exact (hsuccessors h).1
  · intro p l q hmove
    obtain ⟨a, rfl, h⟩ := moves_iff.mp hmove
    exact (hsuccessors h).2.2
  · intro p a q hmove
    exact (hsuccessors (moves_symbol.mp hmove)).2.1

/-- A nondeterministic automaton made of transitions is well-formed if all that they mention is
declared. -/
theorem wellFormed_ofTriples {states finals : StateSet} {alphabet : Alphabet}
    {ts : List (State × Symbol × State)} {initial : State} (hinitial : initial ∈ states)
    (hfinals : ∀ q ∈ finals, q ∈ states)
    (htriples : ∀ p a q, (p, a, q) ∈ ts → p ∈ states ∧ a ∈ alphabet ∧ q ∈ states) :
    Automaton.WellFormed (⟨states, alphabet, .ofTriples ts, initial, finals⟩ : NFA) :=
  wellFormed_of_successors hinitial hfinals fun h =>
    htriples _ _ _ (EdgeTable.mem_successors_ofTriples.mp h)

end NFA

namespace EpsilonNFA

variable {E : EpsilonNFA}

/-- An automaton with empty moves is well-formed if its initial and final states are states, its
labels lead from states to states, and those that read a symbol read one of the alphabet. -/
theorem wellFormed_of_successors (hinitial : E.initial ∈ E.states)
    (hfinals : ∀ q ∈ E.finals, q ∈ E.states) (hsuccessors : ∀ {p l q}, q ∈ E.successors p l →
      p ∈ E.states ∧ (∀ a, l = .symbol a → a ∈ E.alphabet) ∧ q ∈ E.states) : E.WellFormed where
  initial_mem := hinitial
  finals_subset := hfinals
  source_mem _ _ _ hmove := (hsuccessors (moves_iff.mp hmove)).1
  target_mem _ _ _ hmove := (hsuccessors (moves_iff.mp hmove)).2.2
  symbol_mem _ a _ hmove := (hsuccessors (moves_iff.mp hmove)).2.1 a rfl

/-- The labels of a well-formed automaton lead from states to states. -/
theorem of_mem_successors (hE : E.WellFormed) {p q : State} {l : Label} (h : q ∈ E.successors p l) :
    p ∈ E.states ∧ (∀ a, l = .symbol a → a ∈ E.alphabet) ∧ q ∈ E.states := by
  have hmove := moves_iff.mpr h
  refine ⟨hE.source_mem p l q hmove, fun a ha => ?_, hE.target_mem p l q hmove⟩
  subst ha
  exact hE.symbol_mem p a q hmove

/-- An automaton with empty moves made of transitions is well-formed if all that they mention is
declared. -/
theorem wellFormed_ofTriples {states finals : StateSet} {alphabet : Alphabet}
    {ts : List (State × Label × State)} {initial : State} (hinitial : initial ∈ states)
    (hfinals : ∀ q ∈ finals, q ∈ states)
    (htriples : ∀ p l q, (p, l, q) ∈ ts → p ∈ states ∧ (∀ a, l = .symbol a → a ∈ alphabet) ∧
      q ∈ states) :
    Automaton.WellFormed (⟨states, alphabet, .ofTriples ts, initial, finals⟩ : EpsilonNFA) :=
  wellFormed_of_successors hinitial hfinals fun h =>
    htriples _ _ _ (EdgeTable.mem_successors_ofTriples.mp h)

end EpsilonNFA

end RegularLanguages
