import RegularLanguages.Proofs.Kinds

/-!
# Runs through sets of states

The automaton of a subset construction is in the state named after the set that a word leads to,
and stuck if this set is empty. Its states are the names of the non-empty sets that words lead to,
and no two of these share a name. So its run on a word shows all states that a nondeterministic
automaton can be in.
-/

namespace RegularLanguages

namespace StateSet

/-- The name of a set of states, unless the set is empty. -/
def name? (s : StateSet) : Option State := if s.isEmpty then none else some (State.ofSet s)

/-- A set of states that is not empty has a name. -/
theorem name?_of_ne {s : StateSet} (hs : s ≠ ∅) : s.name? = some (State.ofSet s) :=
  if_neg fun hempty => hs (Std.ExtTreeSet.isEmpty_iff.mp hempty)

/-- Only the empty set of states has no name. -/
@[simp] theorem name?_eq_none {s : StateSet} : s.name? = none ↔ s = ∅ := by
  simp [name?]

/-- A set of states has a given name exactly if it is not empty and its members make up the name. -/
theorem name?_eq_some {s : StateSet} {n : State} :
    s.name? = some n ↔ s ≠ ∅ ∧ State.ofSet s = n := by
  by_cases hs : s = ∅
  · simp [hs, name?]
  · simp [hs, name?_of_ne hs]

end StateSet

namespace SubsetMachine

variable {states : StateSet} {alphabet : Alphabet} {first : StateSet}
  {step : StateSet → Symbol → StateSet} {accepting : StateSet → Bool}
  {accepts : StateSet → Word → Bool}

/-- The search of a subset construction finds only sets that words lead to. -/
theorem explores_reached (h : SubsetMachine states alphabet first step accepting accepts) :
    Search.Explores alphabet.toList (fun s a => (step s a).nodes)
      (fun s => IsNode states s ∧ ∃ w : Word, w.foldl step first = s) first
      (Id.run (Search.run Meter.free alphabet.toList (fun s a => (step s a).nodes)
        (2 ^ states.size) first)) := by
  apply Search.explores_run ⟨h.isNode_first, [], rfl⟩
  · intro s a t hs _ ht
    obtain ⟨rfl, hne⟩ := StateSet.mem_nodes.mp ht
    obtain ⟨hs, w, rfl⟩ := hs
    exact ⟨⟨hne, h.mem_of_step _ a hs.2⟩, w ++ [a], by simp⟩
  · exact fun t ht => StateSet.size_le_two_pow fun s hs => (ht s hs).1.2

/-- The sets found are the non-empty ones that words lead to, if nothing leads out of the empty
set. -/
theorem mem_found (h : SubsetMachine states alphabet first step accepting accepts)
    (hempty : ∀ a, step ∅ a = ∅) {s : StateSet} :
    s ∈ (Id.run (Search.run Meter.free alphabet.toList (fun s a => (step s a).nodes)
        (2 ^ states.size) first)).found ↔
      s ≠ ∅ ∧ ∃ w : Word, w.foldl step first = s := by
  constructor
  · intro hs
    obtain ⟨⟨hne, -⟩, hreached⟩ := h.explores_reached.good_of_mem s hs
    exact ⟨hne, hreached⟩
  · intro hs
    obtain ⟨hne, w, rfl⟩ := hs
    -- The last symbol of a word leads on from a set that is not empty either.
    induction w using List.reverseRecOn with
    | nil => exact h.explores_reached.first_mem
    | append_singleton w a ih =>
      rw [List.foldl_append, List.foldl_cons, List.foldl_nil] at hne ⊢
      have hbefore : w.foldl step first ≠ ∅ := by
        intro hbefore
        rw [hbefore, hempty] at hne
        exact hne rfl
      have ha : a ∈ alphabet := by
        by_contra hforeign
        exact hne (h.step_foreign _ a hforeign)
      exact h.explores_reached.mem_of_next _ (ih hbefore) a (Std.ExtTreeSet.mem_toList.mpr ha) _
        (StateSet.mem_nodes.mpr ⟨rfl, hne⟩)

variable {D : DFA}
  (hD : D = (Id.run (Search.run Meter.free alphabet.toList (fun s a => (step s a).nodes)
    (2 ^ states.size) first)).toDFA alphabet State.ofSet first accepting)

include hD

/-- The states of the automaton are the names of the non-empty sets that words lead to. -/
theorem mem_states_toDFA (h : SubsetMachine states alphabet first step accepting accepts)
    (hempty : ∀ a, step ∅ a = ∅) {n : State} :
    n ∈ D.states ↔ ∃ w : Word, (w.foldl step first).name? = some n := by
  subst hD
  simp only [Search.toDFA, Search.toAutomaton, StateSet.mem_ofList, List.mem_map,
    Std.ExtTreeSet.mem_toList, h.mem_found hempty, StateSet.name?_eq_some]
  constructor
  · intro hn
    obtain ⟨s, ⟨hne, w, rfl⟩, rfl⟩ := hn
    exact ⟨w, hne, rfl⟩
  · intro hn
    obtain ⟨w, hne, rfl⟩ := hn
    exact ⟨_, ⟨hne, w, rfl⟩, rfl⟩

/-- A symbol leads from the name of a set to the name of the set after it. -/
theorem successor?_toDFA (h : SubsetMachine states alphabet first step accepting accepts)
    (hempty : ∀ a, step ∅ a = ∅) {s : StateSet} (hne : s ≠ ∅)
    (hreached : ∃ w : Word, w.foldl step first = s) (a : Symbol) :
    D.successor? (State.ofSet s) a = (step s a).name? := by
  subst hD
  have hexplores := h.explores_reached
  have hname := fun s hs t ht => State.ofSet_inj (hexplores.good_of_mem s hs).1.1
    (hexplores.good_of_mem t ht).1.1
  have hnext : ∀ s a, ∀ t ∈ (step s a).nodes, ∀ u ∈ (step s a).nodes, t = u := by
    intro s a t ht u hu
    rw [(StateSet.mem_nodes.mp ht).1, (StateSet.mem_nodes.mp hu).1]
  have hs := (h.mem_found hempty).mpr ⟨hne, hreached⟩
  apply Option.ext
  intro n
  rw [hexplores.successor?_toDFA hname hnext, StateSet.name?_eq_some]
  constructor
  · intro hn
    obtain ⟨t, ht, u, hu, -, hsame, rfl⟩ := hn
    obtain rfl := hname t ht s hs hsame
    obtain ⟨rfl, hleads⟩ := StateSet.mem_nodes.mp hu
    exact ⟨hleads, rfl⟩
  · intro hn
    obtain ⟨hleads, rfl⟩ := hn
    have ha : a ∈ alphabet := by
      by_contra hforeign
      exact hleads (h.step_foreign s a hforeign)
    exact ⟨s, hs, step s a, StateSet.mem_nodes.mpr ⟨rfl, hleads⟩, Std.ExtTreeSet.mem_toList.mpr ha,
      rfl, rfl⟩

/-- The run of the automaton is in the state named after the set that the word leads to. -/
theorem run_toDFA (h : SubsetMachine states alphabet first step accepting accepts)
    (hempty : ∀ a, step ∅ a = ∅) (w : Word) : D.run w = (w.foldl step first).name? := by
  have hstuck (v : Word) : v.foldl step ∅ = ∅ := by
    induction v with
    | nil => rfl
    | cons a v ih => rw [List.foldl_cons, hempty, ih]
  have hrun (v : Word) (s : StateSet) (hne : s ≠ ∅)
      (hreached : ∃ w : Word, w.foldl step first = s) :
      D.runFrom (State.ofSet s) v = (v.foldl step s).name? := by
    induction v generalizing s with
    | nil => exact (StateSet.name?_of_ne hne).symm
    | cons a v ih =>
      rw [DFA.runFrom_cons, h.successor?_toDFA hD hempty hne hreached, List.foldl_cons]
      by_cases hnext : step s a = ∅
      · rw [hnext, hstuck, StateSet.name?_eq_none.mpr rfl, Option.bind_none]
      · obtain ⟨u, rfl⟩ := hreached
        rw [StateSet.name?_of_ne hnext, Option.bind_some]
        exact ih _ hnext ⟨u ++ [a], by simp⟩
  have hinitial : D.initial = State.ofSet first := by
    subst hD
    rfl
  rw [DFA.run, hinitial]
  exact hrun w first h.isNode_first.1 ⟨[], rfl⟩

end SubsetMachine

namespace NFA

variable {N : NFA}

/-- The set of states after a word is reached by one step for each symbol. -/
theorem runFrom_eq_foldl (s : StateSet) (w : Word) : N.runFrom s w = w.foldl N.step s := by
  induction w generalizing s with
  | nil => rfl
  | cons a w ih => rw [runFrom, ih, List.foldl_cons]

/-- No symbol leads out of the empty set. -/
theorem step_empty (a : Symbol) : N.step ∅ a = ∅ := by
  apply Std.ExtTreeSet.ext_mem
  simp

/-- The states that a word leads to are the ends of its traces. -/
theorem mem_run {w : Word} {q : State} : q ∈ N.run w ↔ Trace N.Moves N.initial w q := by
  simp [run, mem_runFrom]

/-- The automaton of the subset construction is in the state of the set that a word leads to. -/
theorem run_determinize (hN : N.WellFormed) (w : Word) : N.determinize.run w = (N.run w).name? := by
  rw [run, runFrom_eq_foldl]
  exact (subsetMachine hN).run_toDFA rfl step_empty w

/-- The states of the subset construction are the names of the non-empty sets that words lead
to. -/
theorem mem_states_determinize (hN : N.WellFormed) {n : State} :
    n ∈ N.determinize.states ↔ ∃ w, (N.run w).name? = some n := by
  simp only [run, runFrom_eq_foldl]
  exact (subsetMachine hN).mem_states_toDFA rfl step_empty

/-- The subset construction gets stuck on the words that have no trace and is otherwise in the
state named after the ends of all traces of the word, so that it accepts what the automaton accepts
and recognizes. These sets are its states, each with a name of its own. -/
theorem determinize_runs_through_reached_sets (hN : N.WellFormed) :
    (∀ w, N.determinize.run w = none ↔ ∀ q, ¬Trace N.Moves N.initial w q) ∧
    (∀ w, (∃ q, Trace N.Moves N.initial w q) → ∃ s : StateSet,
      (∀ q, q ∈ s ↔ Trace N.Moves N.initial w q) ∧
        N.determinize.run w = some (State.ofSet s)) ∧
    (∀ w, (N.accepts w = true ↔ ∃ q ∈ N.finals, Trace N.Moves N.initial w q) ∧
      N.determinize.accepts w = N.accepts w) ∧
    (∀ n, n ∈ N.determinize.states ↔ ∃ (w : Word) (s : StateSet), (∃ q, q ∈ s) ∧
      (∀ q, q ∈ s ↔ Trace N.Moves N.initial w q) ∧ State.ofSet s = n) ∧
    ∀ s t : StateSet, s ≠ ∅ → t ≠ ∅ → State.ofSet s = State.ofSet t → s = t := by
  have hempty (w : Word) : N.run w = ∅ ↔ ∀ q, ¬Trace N.Moves N.initial w q := by
    rw [← not_iff_not, ← ne_eq, StateSet.ne_empty_iff]
    simp [mem_run]
  refine ⟨?_, ?_, ?_, ?_, ?_⟩
  · intro w
    rw [run_determinize hN, StateSet.name?_eq_none, hempty]
  · intro w hw
    refine ⟨N.run w, fun q => mem_run, ?_⟩
    rw [run_determinize hN, StateSet.name?_of_ne]
    exact StateSet.ne_empty_iff.mpr (hw.imp fun q => mem_run.mpr)
  · exact fun w => ⟨accepts_iff, (determinize_spec hN).2 w⟩
  · intro n
    simp only [mem_states_determinize hN, StateSet.name?_eq_some, StateSet.ne_empty_iff]
    constructor
    · intro hn
      obtain ⟨w, hne, rfl⟩ := hn
      exact ⟨w, N.run w, hne, fun q => mem_run, rfl⟩
    · intro hn
      obtain ⟨w, s, hne, hmem, rfl⟩ := hn
      have hsame : s = N.run w := by
        apply Std.ExtTreeSet.ext_mem
        intro q
        rw [hmem, mem_run]
      exact ⟨w, hsame ▸ hne, by rw [hsame]⟩
  · exact fun s t => State.ofSet_inj

/-- A state whose name looks like a list of two others has a set of its own: here one symbol leads
to it and another one to these two. -/
theorem determinize_separator_names :
    let N : NFA := ⟨.ofList ["p", "q", "p,q"], .ofText "ab",
      .ofTriples [("p", 'a', "p,q"), ("p", 'b', "p"), ("p", 'b', "q")], "p", .ofList ["q"]⟩
    N.WellFormed ∧ (∃ s : StateSet, (∀ q, q ∈ s ↔ Trace N.Moves N.initial ['b'] q) ∧
        N.determinize.run ['b'] = some (State.ofSet s)) ∧
      State.ofSet (.ofList ["p,q"]) ≠ State.ofSet (.ofList ["p", "q"]) := by
  intro N
  have hN : N.WellFormed := by
    apply wellFormed_ofTriples <;> simp_all [Alphabet.ofText]
    grind
  obtain ⟨-, hruns, -, -, hnames⟩ := determinize_runs_through_reached_sets hN
  have htrace : Trace N.Moves N.initial ['b'] "q" := by
    refine .symbol (moves_symbol.mpr ?_) (.refl _)
    exact EdgeTable.mem_successors_ofTriples.mpr (by simp [N])
  refine ⟨hN, hruns ['b'] ⟨"q", htrace⟩, ?_⟩
  intro hsame
  have hsets := hnames _ _ (StateSet.ne_empty_iff.mpr ⟨"p,q", by simp⟩)
    (StateSet.ne_empty_iff.mpr ⟨"p", by simp⟩) hsame
  have hmem : "p" ∈ StateSet.ofList ["p,q"] := hsets ▸ StateSet.mem_ofList.mpr (by simp)
  simp at hmem

end NFA

namespace EpsilonNFA

variable {E : EpsilonNFA}

/-- Whatever empty moves there are, an automaton accepts the words that its traces to final states
spell, and so do the automaton without empty moves and the deterministic one. The former has the
same states, alphabet and initial state. -/
theorem conversions_accept_traces (hE : E.WellFormed) :
    (∀ w, (E.accepts w = true ↔ ∃ q ∈ E.finals, Trace E.Moves E.initial w q) ∧
      E.toNFA.accepts w = E.accepts w ∧ E.toDFA.accepts w = E.accepts w) ∧
    E.toNFA.states = E.states ∧ E.toNFA.alphabet = E.alphabet ∧ E.toNFA.initial = E.initial := by
  have hnfa (w : Word) : E.toNFA.accepts w = E.accepts w := by
    rw [Bool.eq_iff_iff, NFA.accepts_iff, accepts_iff, recognizes_toNFA hE]
  have hdfa (w : Word) : E.toDFA.accepts w = E.toNFA.accepts w :=
    (NFA.determinize_spec (wellFormed_toNFA hE)).2 w
  exact ⟨fun w => ⟨accepts_iff, hnfa w, (hdfa w).trans (hnfa w)⟩, rfl, rfl, rfl⟩

/-- Empty moves in a circle, on which a final state lies, let the empty word be accepted by all
three automata. -/
theorem conversions_accept_empty_word_of_circle :
    let E : EpsilonNFA := ⟨.ofList ["p", "q"], .ofText "a",
      .ofTriples [("p", .epsilon, "q"), ("q", .epsilon, "p"), ("q", .epsilon, "q"),
        ("q", .symbol 'a', "q")], "p", .ofList ["q"]⟩
    E.WellFormed ∧ E.accepts [] = true ∧ E.toNFA.accepts [] = true ∧ E.toDFA.accepts [] = true := by
  intro E
  have hE : E.WellFormed := by
    apply wellFormed_ofTriples <;> simp_all [Alphabet.ofText]
    grind
  obtain ⟨hagree, -⟩ := conversions_accept_traces hE
  obtain ⟨htrace, hnfa, hdfa⟩ := hagree []
  have haccepts : E.accepts [] = true := by
    rw [htrace]
    refine ⟨"q", StateSet.mem_ofList.mpr (by simp), .epsilon (moves_iff.mpr ?_) (.refl _)⟩
    exact EdgeTable.mem_successors_ofTriples.mpr (by simp [E])
  exact ⟨hE, haccepts, hnfa.trans haccepts, hdfa.trans haccepts⟩

end EpsilonNFA

end RegularLanguages
