import RegularLanguages.Proofs.Subsets

/-!
# Closed sets against sets

The direct subset construction works with sets that are closed under empty moves. The one behind
the removal of empty moves reads symbols from the closed sets too, but does not close a set again
before the next symbol. So at every word the direct run is in the closure of the set that the other
run is in; and since sets with different closures are different, the direct construction has no
more states.
-/

namespace RegularLanguages.EpsilonNFA

variable {E : EpsilonNFA}

/-- The closure of a set is empty only if the set is. -/
theorem closure_eq_empty_iff {s : StateSet} : E.closure s = ∅ ↔ s = ∅ := by
  rw [← not_iff_not, ← ne_eq, ← ne_eq, StateSet.ne_empty_iff, StateSet.ne_empty_iff]
  constructor
  · intro h
    obtain ⟨q, hq⟩ := h
    obtain ⟨p, hp, -⟩ := mem_closure.mp hq
    exact ⟨p, hp⟩
  · intro h
    obtain ⟨p, hp⟩ := h
    exact ⟨p, mem_closure.mpr ⟨p, hp, .refl p⟩⟩

/-- Nothing is reached from the empty set. -/
theorem closedStep_empty (a : Symbol) : E.closedStep ∅ a = ∅ := by
  rw [closedStep, closure_eq_empty_iff]
  apply Std.ExtTreeSet.ext_mem
  simp

/-- The set of states after a word is reached by one closed step for each symbol. -/
theorem runFrom_eq_foldl (s : StateSet) (w : Word) : E.runFrom s w = w.foldl E.closedStep s := by
  induction w generalizing s with
  | nil => rfl
  | cons a w ih => rw [runFrom, ih, List.foldl_cons]

/-- The automaton of the direct construction is in the state of the closed set that a word leads
to. -/
theorem run_determinize (hE : E.WellFormed) (w : Word) :
    E.determinize.run w = (E.run w).name? := by
  rw [run, runFrom_eq_foldl]
  exact (subsetMachine hE).run_toDFA rfl closedStep_empty w

/-- The states of the direct construction are the names of the non-empty closed sets that words
lead to. -/
theorem mem_states_determinize (hE : E.WellFormed) {n : State} :
    n ∈ E.determinize.states ↔ ∃ w, (E.run w).name? = some n := by
  simp only [run, runFrom_eq_foldl]
  exact (subsetMachine hE).mem_states_toDFA rfl closedStep_empty

/-- Without empty moves, a symbol leads from a set to where it leads from the closure of the set. -/
theorem step_toNFA (hE : E.WellFormed) {s : StateSet} (hs : ∀ q ∈ s, q ∈ E.states) (a : Symbol) :
    E.toNFA.step s a = E.step (E.closure s) a := by
  apply Std.ExtTreeSet.ext_mem
  intro q
  rw [NFA.mem_step, mem_step]
  constructor
  · intro h
    obtain ⟨p, hp, hq⟩ := h
    obtain ⟨-, r, hempty, hread⟩ := (mem_successors_toNFA hE).mp hq
    exact ⟨r, mem_closure.mpr ⟨p, hp, hempty⟩, hread⟩
  · intro h
    obtain ⟨r, hr, hread⟩ := h
    obtain ⟨p, hp, hempty⟩ := mem_closure.mp hr
    exact ⟨p, hp, (mem_successors_toNFA hE).mpr ⟨hs p hp, r, hempty, hread⟩⟩

/-- Closing is a simulation: it takes the steps without empty moves to the steps of closed sets. -/
theorem closure_step_toNFA (hE : E.WellFormed) {s : StateSet} (hs : ∀ q ∈ s, q ∈ E.states)
    (a : Symbol) : E.closure (E.toNFA.step s a) = E.closedStep (E.closure s) a := by
  rw [step_toNFA hE hs, closedStep]

/-- From a set of states, the closure of what a word leads to without empty moves is what it leads
to from the closure. -/
theorem closure_runFrom_toNFA (hE : E.WellFormed) {s : StateSet} (hs : ∀ q ∈ s, q ∈ E.states)
    (w : Word) : E.closure (E.toNFA.runFrom s w) = E.runFrom (E.closure s) w := by
  induction w generalizing s with
  | nil => rfl
  | cons a w ih =>
    have hnext : ∀ q ∈ E.toNFA.step s a, q ∈ E.states :=
      (NFA.subsetMachine (wellFormed_toNFA hE)).mem_of_step s a hs
    rw [NFA.runFrom, ih hnext, closure_step_toNFA hE hs, runFrom]

/-- The closure of the set that a word leads to without empty moves is the closed set that it leads
to with them. -/
theorem closure_run_toNFA (hE : E.WellFormed) (w : Word) : E.closure (E.toNFA.run w) = E.run w := by
  refine closure_runFrom_toNFA hE ?_ w
  intro q hq
  rw [StateSet.mem_single.mp hq]
  exact hE.initial_mem

/-- The runs of both constructions, by the set that a word leads to without empty moves. -/
theorem runs_eq_name? (hE : E.WellFormed) (w : Word) :
    E.toDFA.run w = (E.toNFA.run w).name? ∧
      E.determinize.run w = (E.closure (E.toNFA.run w)).name? := by
  rw [closure_run_toNFA hE]
  exact ⟨NFA.run_determinize (wellFormed_toNFA hE) w, run_determinize hE w⟩

/-- The direct construction has no more states: words that lead it to different states lead the
other one to different states. -/
theorem size_determinize_le (hE : E.WellFormed) : E.determinize.size ≤ E.toDFA.size := by
  have hreached (n : State) (hn : n ∈ E.determinize.states) :
      ∃ w, (E.closure (E.toNFA.run w)).name? = some n := by
    obtain ⟨w, hw⟩ := (mem_states_determinize hE).mp hn
    exact ⟨w, (closure_run_toNFA hE w).symm ▸ hw⟩
  -- A state goes to where a word for it leads without empty moves; the closure leads back.
  choose! word hword using hreached
  have hne (n : State) (hn : n ∈ E.determinize.states) : E.toNFA.run (word n) ≠ ∅ := by
    intro hempty
    have hname := hword n hn
    rw [closure_eq_empty_iff.mpr hempty] at hname
    contradiction
  apply FiniteSet.size_le_of_injOn fun n => State.ofSet (E.toNFA.run (word n))
  · intro n hn
    rw [toDFA, NFA.mem_states_determinize (wellFormed_toNFA hE)]
    exact ⟨word n, StateSet.name?_of_ne (hne n hn)⟩
  · intro m hm n hn hsame
    have hsets := State.ofSet_inj (hne m hm) (hne n hn) hsame
    have hname := hword m hm
    rw [hsets, hword n hn] at hname
    exact (Option.some.inj hname).symm

/-- The direct run is stuck where the run without empty moves is, and otherwise in the closure of
the set that this is in. So both automata accept what the given one accepts, and the direct one has
no more states. -/
theorem determinize_simulates_toDFA (hE : E.WellFormed) :
    (∀ w, E.determinize.run w = none ↔ E.toDFA.run w = none) ∧
    (∀ w n, E.toDFA.run w = some n → ∃ s : StateSet, s ≠ ∅ ∧ State.ofSet s = n) ∧
    (∀ w (s : StateSet), s ≠ ∅ → E.toDFA.run w = some (State.ofSet s) →
      E.determinize.run w = some (State.ofSet (E.closure s))) ∧
    (∀ (s : StateSet) q, q ∈ E.closure s ↔ ∃ p ∈ s, Trace E.Moves p [] q) ∧
    (∀ w, E.determinize.accepts w = E.accepts w ∧ E.toDFA.accepts w = E.accepts w) ∧
    E.determinize.size ≤ E.toDFA.size := by
  refine ⟨?_, ?_, ?_, fun _ _ => mem_closure, ?_, size_determinize_le hE⟩
  · intro w
    obtain ⟨hdfa, hdirect⟩ := runs_eq_name? hE w
    rw [hdfa, hdirect, StateSet.name?_eq_none, StateSet.name?_eq_none, closure_eq_empty_iff]
  · intro w n hn
    rw [(runs_eq_name? hE w).1, StateSet.name?_eq_some] at hn
    exact ⟨_, hn⟩
  · intro w s hs hrun
    obtain ⟨hdfa, hdirect⟩ := runs_eq_name? hE w
    rw [hdfa, StateSet.name?_eq_some] at hrun
    obtain ⟨hne, hsame⟩ := hrun
    obtain rfl := State.ofSet_inj hne hs hsame
    rw [hdirect, StateSet.name?_of_ne (mt closure_eq_empty_iff.mp hne)]
  · intro w
    refine ⟨(determinize_spec hE).2 w, ?_⟩
    rw [toDFA, (NFA.determinize_spec (wellFormed_toNFA hE)).2 w, Bool.eq_iff_iff, NFA.accepts_iff,
      accepts_iff, recognizes_toNFA hE]

/-- Empty moves in both directions between two states make one closed set of two sets with one
state each: here these are where the two symbols lead. -/
theorem determinize_simulates_two_way_moves :
    let E : EpsilonNFA := ⟨.ofList ["p", "q", "r"], .ofText "ab",
      .ofTriples [("p", .symbol 'a', "q"), ("p", .symbol 'b', "r"), ("q", .epsilon, "r"),
        ("r", .epsilon, "q")], "p", .ofList ["q"]⟩
    E.WellFormed ∧
      E.toDFA.run ['a'] = some (State.ofSet (.single "q")) ∧
      E.toDFA.run ['b'] = some (State.ofSet (.single "r")) ∧
      E.determinize.run ['a'] = some (State.ofSet (E.closure (.single "q"))) ∧
      E.determinize.run ['b'] = some (State.ofSet (E.closure (.single "r"))) ∧
      E.determinize.size ≤ E.toDFA.size := by
  intro E
  have hE : E.WellFormed := by
    apply wellFormed_ofTriples <;> simp_all [Alphabet.ofText]
    grind
  obtain ⟨-, -, hruns, -, -, hsize⟩ := determinize_simulates_toDFA hE
  have ha : E.toDFA.run ['a'] = some (State.ofSet (.single "q")) := by decide +kernel
  have hb : E.toDFA.run ['b'] = some (State.ofSet (.single "r")) := by decide +kernel
  have hne (q : State) : StateSet.single q ≠ ∅ :=
    StateSet.ne_empty_iff.mpr ⟨q, StateSet.mem_single.mpr rfl⟩
  exact ⟨hE, ha, hb, hruns ['a'] _ (hne "q") ha, hruns ['b'] _ (hne "r") hb, hsize⟩

end RegularLanguages.EpsilonNFA
