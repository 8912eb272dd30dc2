import RegularLanguages.Proofs.Indistinguishable
import RegularLanguages.Proofs.Names

/-!
# Complete automata

A complete automaton gets stuck on foreign symbols only. Completion adds a state that is not final
and is never left, so it changes where the runs end that were stuck, and not what is accepted.
-/

namespace RegularLanguages.DFA

variable {D : DFA} {p q : State} {a : Symbol} {w : Word}

/-- A complete automaton has a successor for every state and symbol. -/
theorem isComplete_iff :
    D.isComplete = true ↔ ∀ q ∈ D.states, ∀ a ∈ D.alphabet, (D.successor? q a).isSome := by
  simp [isComplete]

/-- The runs of a complete automaton end on the words over the alphabet, and on no others. -/
theorem isSome_runFrom_iff (hD : D.WellFormed) (hcomplete : D.isComplete = true)
    (hq : q ∈ D.states) : (D.runFrom q w).isSome ↔ ∀ a ∈ w, a ∈ D.alphabet := by
  constructor
  · intro h
    obtain ⟨r, hr⟩ := Option.isSome_iff_exists.mp h
    exact hD.symbol_mem_of_trace (trace_iff.mpr hr)
  · intro h
    induction w generalizing q with
    | nil => rfl
    | cons a w ih =>
      have hsome := isComplete_iff.mp hcomplete q hq a (h a List.mem_cons_self)
      obtain ⟨r, hr⟩ := Option.isSome_iff_exists.mp hsome
      rw [runFrom_cons, hr, Option.bind_some]
      exact ih (successor_mem hD hr) fun b hb => h b (List.mem_cons_of_mem a hb)

/-- A complete automaton stays as it is. -/
theorem complete_of_isComplete (h : D.isComplete = true) : D.complete = D := by
  rw [complete, if_pos h]

/-- The state that completion adds. -/
def sink (D : DFA) : State := State.fresh D.states "sink"

/-- The state that completion adds is none that was there. -/
theorem sink_notMem : D.sink ∉ D.states := State.fresh_notMem _ _

/-- Completion leaves the alphabet alone. -/
@[simp] theorem alphabet_complete : D.complete.alphabet = D.alphabet := by
  rw [complete]
  split <;> rfl

/-- Completion leaves the initial state alone. -/
@[simp] theorem initial_complete : D.complete.initial = D.initial := by
  rw [complete]
  split <;> rfl

/-- Completion adds no final state. -/
@[simp] theorem finals_complete : D.complete.finals = D.finals := by
  rw [complete]
  split <;> rfl

/-- Completion adds one state where something is missing. -/
theorem mem_states_complete (h : ¬D.isComplete = true) :
    q ∈ D.complete.states ↔ q = D.sink ∨ q ∈ D.states := by
  rw [complete, if_neg h]
  exact FiniteSet.mem_insert

/-- Missing transitions over symbols of the alphabet lead to the sink, and the others to where
they led before. -/
theorem successor?_complete (h : ¬D.isComplete = true) :
    D.complete.successor? q a =
      if q ∈ D.complete.states ∧ a ∈ D.alphabet ∧ D.successor? q a = none then some D.sink
      else D.successor? q a := by
  have hstates : (D.states.insert D.sink) = D.complete.states := by
    rw [complete, if_neg h]
    rfl
  have hmem (r : State) : (q, a, r) ∈ (D.complete.states.toList.flatMap fun q =>
      (D.missingSymbols q).map fun a => (q, a, D.sink)) ↔
        (q ∈ D.complete.states ∧ a ∈ D.alphabet ∧ D.successor? q a = none) ∧ r = D.sink := by
    simp only [missingSymbols, List.mem_flatMap, List.mem_map, List.mem_filter,
      Std.ExtTreeSet.mem_toList, Option.isNone_iff_eq_none, Prod.mk.injEq]
    constructor
    · intro h
      obtain ⟨q, hq, a, ⟨ha, hnone⟩, rfl, rfl, rfl⟩ := h
      exact ⟨⟨hq, ha, hnone⟩, rfl⟩
    · intro h
      obtain ⟨⟨hq, ha, hnone⟩, rfl⟩ := h
      exact ⟨q, hq, a, ⟨ha, hnone⟩, rfl, rfl, rfl⟩
  have htable : D.complete.successor? q a =
      (D.transitions.putAll (D.complete.states.toList.flatMap fun q =>
        (D.missingSymbols q).map fun a => (q, a, D.sink))).successor? q a := by
    rw [← hstates, complete, if_neg h]
    rfl
  rw [htable]
  split
  · rename_i hmissing
    exact DeterministicTable.successor?_putAll_of_mem _ _ ((hmem _).mpr ⟨hmissing, rfl⟩)
      fun r hr => ((hmem r).mp hr).2
  · rename_i hmissing
    exact DeterministicTable.successor?_putAll_of_forall_ne _ _ _ _
      fun r hr => hmissing ((hmem r).mp hr).1

/-- A transition of the completed automaton was there before, or leads from a state to the sink. -/
theorem successor?_complete_eq_some (h : ¬D.isComplete = true)
    (hq : D.complete.successor? p a = some q) :
    D.successor? p a = some q ∨ (p ∈ D.complete.states ∧ a ∈ D.alphabet ∧ q = D.sink) := by
  rw [successor?_complete h] at hq
  split at hq
  · rename_i hmissing
    exact .inr ⟨hmissing.1, hmissing.2.1, (Option.some.inj hq).symm⟩
  · exact .inl hq

/-- Completion makes an automaton complete. -/
theorem isComplete_complete (D : DFA) : D.complete.isComplete = true := by
  by_cases h : D.isComplete = true
  · rw [complete_of_isComplete h, h]
  · rw [isComplete_iff]
    intro q hq a ha
    rw [alphabet_complete] at ha
    rw [successor?_complete h]
    split
    · rfl
    · rename_i hfound
      by_contra hnone
      exact hfound ⟨hq, ha, Option.not_isSome_iff_eq_none.mp hnone⟩

/-- Completion keeps an automaton well-formed. -/
theorem wellFormed_complete (hD : D.WellFormed) : D.complete.WellFormed := by
  by_cases h : D.isComplete = true
  · rwa [complete_of_isComplete h]
  · have hold {q : State} (hq : q ∈ D.states) : q ∈ D.complete.states :=
      (mem_states_complete h).mpr (.inr hq)
    refine wellFormed_of_successor? ?_ ?_ ?_
    · rw [initial_complete]
      exact hold hD.initial_mem
    · rw [finals_complete]
      exact fun q hq => hold (hD.finals_subset q hq)
    · intro p a q hq
      rw [alphabet_complete]
      rcases successor?_complete_eq_some h hq with hq | ⟨hp, ha, rfl⟩
      · exact ⟨hold (source_mem hD hq), symbol_mem hD hq, hold (successor_mem hD hq)⟩
      · exact ⟨hp, ha, (mem_states_complete h).mpr (.inl rfl)⟩

/-- Nothing is accepted from a state that is none. -/
theorem acceptsFrom_of_notMem (hD : D.WellFormed) (hq : q ∉ D.states) :
    D.acceptsFrom q w = false := by
  cases w with
  | nil =>
    rw [acceptsFrom_nil, ← Bool.not_eq_true, Automaton.isFinal_iff]
    exact fun hfinal => hq (hD.finals_subset q hfinal)
  | cons a w =>
    have hstuck : D.successor? q a = none := by
      by_contra hsome
      obtain ⟨r, hr⟩ := Option.ne_none_iff_exists'.mp hsome
      exact hq (source_mem hD hr)
    rw [acceptsFrom_cons, hstuck]
    rfl

/-- Completion does not change what is accepted from any state. -/
theorem acceptsFrom_complete (hD : D.WellFormed) :
    D.complete.acceptsFrom q w = D.acceptsFrom q w := by
  by_cases h : D.isComplete = true
  · rw [complete_of_isComplete h]
  · induction w generalizing q with
    | nil => simp [Automaton.isFinal]
    | cons a w ih =>
      rw [acceptsFrom_cons, acceptsFrom_cons, successor?_complete h]
      split
      · rename_i hmissing
        rw [hmissing.2.2, Option.any_some, ih, acceptsFrom_of_notMem hD D.sink_notMem]
        rfl
      · simp only [ih]

/-- Completion does not change what is accepted. -/
theorem accepts_complete (hD : D.WellFormed) : D.complete.accepts w = D.accepts w := by
  rw [accepts_eq_acceptsFrom, accepts_eq_acceptsFrom, initial_complete, acceptsFrom_complete hD]

/-- Every state has a transition on every symbol. -/
def IsTotal (D : DFA) : Prop := ∀ q ∈ D.states, ∀ a ∈ D.alphabet, ∃ r, D.Moves q (.symbol a) r

/-- The test for completeness looks for the transitions. -/
theorem isComplete_iff_isTotal : D.isComplete = true ↔ D.IsTotal := by
  simp only [isComplete_iff, IsTotal, moves_symbol, Option.isSome_iff_exists]

/-- Completion leaves the transitions alone that there are. -/
theorem moves_complete {l : Label} (hmove : D.Moves p l q) : D.complete.Moves p l q := by
  by_cases h : D.isComplete = true
  · rwa [complete_of_isComplete h]
  · obtain ⟨a, rfl, hq⟩ := moves_iff.mp hmove
    rw [moves_symbol, successor?_complete h, if_neg, hq]
    intro hmissing
    rw [hq] at hmissing
    exact absurd hmissing.2.2 (Option.some_ne_none q)

/-- The transitions that completion adds lead to the sink. -/
theorem moves_or_eq_sink_of_moves_complete (h : ¬D.isComplete = true) {l : Label}
    (hmove : D.complete.Moves p l q) : D.Moves p l q ∨ q = D.sink := by
  obtain ⟨a, rfl, hq⟩ := moves_iff.mp hmove
  rcases successor?_complete_eq_some h hq with hold | ⟨-, -, hsink⟩
  · exact .inl (moves_symbol.mpr hold)
  · exact .inr hsink

/-- The sink is never left. -/
theorem eq_sink_of_moves_complete (hD : D.WellFormed) (h : ¬D.isComplete = true) {l : Label}
    (hmove : D.complete.Moves D.sink l q) : q = D.sink :=
  (moves_or_eq_sink_of_moves_complete h hmove).resolve_left fun hold =>
    D.sink_notMem (hD.source_mem D.sink l q hold)

/-- Completion adds one state to an automaton that is not complete. -/
theorem size_complete (h : ¬D.isComplete = true) : D.complete.size = D.size + 1 := by
  rw [complete, if_neg h]
  exact FiniteSet.size_insert D.sink_notMem

/-- Completion makes an automaton total that accepts the same words, and keeps its states,
transitions, initial state and final states. A total automaton is not changed. Any other gets one
more state, which is new, not final, never left, and the target of all transitions that are
added. -/
theorem complete_adds_at_most_a_sink (hD : D.WellFormed) :
    D.complete.IsTotal ∧ (D.isComplete = true ↔ D.IsTotal) ∧
    (∀ w, D.complete.accepts w = D.accepts w) ∧
    ((∀ q ∈ D.states, q ∈ D.complete.states) ∧ D.complete.alphabet = D.alphabet ∧
      (∀ p l q, D.Moves p l q → D.complete.Moves p l q) ∧
      D.complete.initial = D.initial ∧ D.complete.finals = D.finals) ∧
    (D.IsTotal → D.complete = D) ∧
    (¬D.IsTotal → D.complete.size = D.size + 1 ∧ ∃ s, s ∉ D.states ∧ s ∉ D.complete.finals ∧
      (∀ q, q ∈ D.complete.states ↔ q = s ∨ q ∈ D.states) ∧
      (∀ l q, D.complete.Moves s l q → q = s) ∧
      ∀ p l q, D.complete.Moves p l q → D.Moves p l q ∨ q = s) := by
  refine ⟨isComplete_iff_isTotal.mp D.isComplete_complete, isComplete_iff_isTotal,
    fun w => accepts_complete hD, ⟨?_, alphabet_complete, fun p l q => moves_complete,
      initial_complete, finals_complete⟩, ?_, ?_⟩
  · intro q hq
    by_cases h : D.isComplete = true
    · rwa [complete_of_isComplete h]
    · exact (mem_states_complete h).mpr (.inr hq)
  · exact fun htotal => complete_of_isComplete (isComplete_iff_isTotal.mpr htotal)
  · intro hpartial
    have h : ¬D.isComplete = true := mt isComplete_iff_isTotal.mp hpartial
    refine ⟨size_complete h, D.sink, D.sink_notMem, ?_, fun q => mem_states_complete h,
      fun l q => eq_sink_of_moves_complete hD h, fun p l q => moves_or_eq_sink_of_moves_complete h⟩
    rw [finals_complete]
    exact fun hfinal => D.sink_notMem (hD.finals_subset _ hfinal)

/-- The added state is a new one also if a state has its usual name already. Here this is final and
lacks a transition, and the added state takes the next name. -/
theorem complete_adds_a_sink_beside_a_state_named_sink :
    let D : DFA := ⟨.ofList ["p", "sink"], .ofText "a", .ofTriples [("p", 'a', "sink")], "p",
      .ofList ["sink"]⟩
    D.WellFormed ∧ ¬D.IsTotal ∧ D.complete.size = 3 ∧ D.complete.accepts ['a'] = true ∧
      D.complete.accepts ['a', 'a'] = false ∧ ∃ s, s ∉ D.states ∧ s ∉ D.complete.finals ∧
        D.complete.Moves "sink" (.symbol 'a') s ∧ ∀ l q, D.complete.Moves s l q → q = s := by
  intro D
  have hD : D.WellFormed := by
    apply wellFormed_ofTriples <;> simp_all [Alphabet.ofText]
  obtain ⟨htotal, hiff, haccepts, ⟨hkeeps, halphabet, -⟩, -, hadds⟩ :=
    complete_adds_at_most_a_sink hD
  have hpartial : ¬D.IsTotal := mt hiff.mpr (by decide +kernel)
  obtain ⟨hsize, s, hs, hfinal, -, hleft, honly⟩ := hadds hpartial
  have hmissing : D.successor? "sink" 'a' = none := by decide +kernel
  obtain ⟨r, hr⟩ := htotal "sink" (hkeeps _ (by decide +kernel)) 'a' (by decide +kernel)
  refine ⟨hD, hpartial, hsize, ?_, ?_, s, hs, hfinal, ?_, hleft⟩
  · rw [haccepts]
    decide +kernel
  · rw [haccepts]
    decide +kernel
  · have hnew : ¬D.Moves "sink" (.symbol 'a') r := by
      rw [moves_symbol, hmissing]
      exact (Option.some_ne_none r).symm
    rwa [(honly _ _ _ hr).resolve_left hnew] at hr

end RegularLanguages.DFA
