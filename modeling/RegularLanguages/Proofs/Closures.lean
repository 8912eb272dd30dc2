import RegularLanguages.Automaton.ClosureMemo
import RegularLanguages.Proofs.Acceptance

/-!
# Closures under empty moves

The closure of a set of states is also found state by state: a stack holds what has been found and
not been followed yet, and the state on top of it is followed to those of its successors that are
new. Every state is put on the stack once, so the stack is empty after as many steps as the closure
has states, whatever circles there are. What has been found then is closed, and it has only what
every closed set with the given states has. A memo that is only asked about one automaton answers
with closures, since it never remembers anything else.
-/

namespace RegularLanguages

/-- A search for all states that can be reached. -/
structure Closing where
  /-- The states that have been found. -/
  seen : StateSet
  /-- Those of them that have not been followed yet, last one first. -/
  stack : List State

namespace Closing

/-- The given states have been found. -/
def start (states : StateSet) : Closing := ⟨states, states.toList.reverse⟩

/-- Follows the state on top of the stack. The successors that are new are put in its place. -/
def step (next : State → StateSet) : Closing → Closing
  | ⟨seen, []⟩ => ⟨seen, []⟩
  | ⟨seen, q :: stack⟩ =>
    let (seen, stack) := (next q).toList.foldl StateSet.addNew (seen, stack)
    ⟨seen, stack⟩

/-- The search after a number of steps. -/
def after (next : State → StateSet) (states : StateSet) : (n : Nat) → Closing
  | 0 => start states
  | n + 1 => (after next states n).step next

variable {next : State → StateSet} {states : StateSet} {seen seen' : StateSet}
  {stack stack' : List State} {q : State} {n : Nat}

/-- As many states are added to the set as to the list. -/
theorem size_foldl_addNew (states : List State) (seen : StateSet) (stack : List State) :
    (states.foldl StateSet.addNew (seen, stack)).1.size + stack.length =
      seen.size + (states.foldl StateSet.addNew (seen, stack)).2.length := by
  induction states generalizing seen stack with
  | nil => rfl
  | cons p states ih =>
    rw [List.foldl_cons]
    by_cases hp : p ∈ seen
    · rw [StateSet.addNew_of_mem hp, ih]
    · have hlater := ih (seen.insert p) (p :: stack)
      rw [FiniteSet.size_insert hp, List.length_cons] at hlater
      rw [StateSet.addNew_of_notMem hp]
      omega

/-- A search after some number of steps: only the states on the stack have not been followed, what
can be reached has not changed, and each step has taken one of the states that have been found off
the stack for good. -/
structure Underway (next : State → StateSet) (states : StateSet) (n : Nat) (s : Closing) :
    Prop where
  expanded : StateSet.Expanded next s.seen s.stack
  reachable_iff : ∀ q, (∃ p ∈ s.seen, Relation.ReflTransGen (StateSet.Leads next) p q) ↔
    ∃ p ∈ states, Relation.ReflTransGen (StateSet.Leads next) p q
  length_stack : s.stack.length = s.seen.size - n

namespace Underway

/-- A search starts with all its states on the stack and nothing followed. -/
theorem start (next : State → StateSet) (states : StateSet) :
    Underway next states 0 (start states) where
  expanded := by
    refine ⟨fun p hp => by simpa [Closing.start] using hp, ?_⟩
    intro p hp hnot
    exact absurd (by simpa [Closing.start] using hp) hnot
  reachable_iff := fun _ => .rfl
  length_stack := by simp [Closing.start]

/-- Following a state is a round in which it alone is expanded. -/
theorem follow (h : Underway next states n ⟨seen, q :: stack⟩)
    (hfollow : (next q).toList.foldl StateSet.addNew (seen, stack) = (seen', stack')) :
    Underway next states (n + 1) ⟨seen', stack'⟩ := by
  have hround : ([q].flatMap fun q => (next q).toList).foldl StateSet.addNew (seen, stack) =
      (seen', stack') := by simpa using hfollow
  have htodo (p : State) : p ∈ q :: stack ↔ p ∈ [q] ∨ p ∈ stack := by simp
  refine ⟨h.expanded.round htodo hround, fun p => ?_, ?_⟩
  · exact (h.expanded.reachable_round htodo hround p).trans (h.reachable_iff p)
  · have hsize := size_foldl_addNew (next q).toList seen stack
    have hlength := h.length_stack
    simp only [hfollow] at hsize
    simp only [List.length_cons] at hlength
    change stack'.length = seen'.size - (n + 1)
    omega

/-- A step keeps the invariant, also if there is nothing left to be followed. -/
theorem step {s : Closing} (h : Underway next states n s) :
    Underway next states (n + 1) (s.step next) := by
  obtain ⟨seen, stack⟩ := s
  cases stack with
  | nil =>
    refine ⟨h.expanded, h.reachable_iff, ?_⟩
    have hlength : 0 = seen.size - n := h.length_stack
    change 0 = seen.size - (n + 1)
    omega
  | cons q stack =>
    rw [Closing.step]
    generalize hfollow : (next q).toList.foldl StateSet.addNew (seen, stack) = result
    exact h.follow hfollow

/-- The invariant holds after any number of steps. -/
theorem after (next : State → StateSet) (states : StateSet) (n : Nat) :
    Underway next states n (after next states n) := by
  induction n with
  | zero => exact start next states
  | succ n ih => exact ih.step

end Underway

section Closed

variable {closed : StateSet}
  (hclosed : ∀ q, q ∈ closed ↔ ∃ p ∈ states, Relation.ReflTransGen (StateSet.Leads next) p q)

include hclosed

/-- When nothing is left to be followed, all that can be reached has been found. -/
theorem seen_after (hdone : (after next states n).stack = []) :
    (after next states n).seen = closed := by
  have h := Underway.after next states n
  have hexpanded := h.expanded
  rw [hdone] at hexpanded
  apply Std.ExtTreeSet.ext_mem
  intro q
  rw [hclosed, ← h.reachable_iff,
    StateSet.reachable_iff_mem_of_closed fun p hp => hexpanded.closed p hp List.not_mem_nil]

/-- Nothing is left to be followed after as many steps as states can be reached, and not before. -/
theorem stack_after_eq_nil_iff : (after next states n).stack = [] ↔ closed.size ≤ n := by
  have h := Underway.after next states n
  have hlength := h.length_stack
  constructor
  · intro hdone
    rw [hdone, seen_after hclosed hdone, List.length_nil] at hlength
    omega
  · intro hn
    have hsub : ∀ q ∈ (after next states n).seen, q ∈ closed := by
      intro q hq
      exact (hclosed q).mpr ((h.reachable_iff q).mp ⟨q, hq, .refl⟩)
    have hsize := FiniteSet.size_le_of_injOn id hsub fun _ _ _ _ hsame => hsame
    apply List.eq_nil_of_length_eq_zero
    omega

end Closed

end Closing

namespace ClosureMemo

/-- Whatever is remembered is a closure. -/
def Faithful (E : EpsilonNFA) (memo : ClosureMemo) : Prop :=
  ∀ s closed, memo.closures[s]? = some closed → closed = E.closure s

variable {E : EpsilonNFA} {memo : ClosureMemo}

/-- A memo that remembers nothing is faithful. -/
theorem faithful_empty : Faithful E empty := by
  intro s closed h
  simp [empty] at h

/-- A faithful memo answers with the closure. -/
theorem closure_fst (h : memo.Faithful E) (s : StateSet) : (memo.closure E s).1 = E.closure s := by
  rw [closure]
  split
  · rename_i closed hfound
    exact h s closed hfound
  · rfl

/-- It stays faithful. -/
theorem Faithful.closure (h : memo.Faithful E) (s : StateSet) :
    (memo.closure E s).2.Faithful E := by
  rw [ClosureMemo.closure]
  split
  · exact h
  · intro t closed hfound
    rw [Std.ExtTreeMap.getElem?_insert] at hfound
    split at hfound
    · rename_i hsame
      obtain rfl := Std.LawfulEqOrd.eq_of_compare hsame
      exact (Option.some.inj hfound).symm
    · exact h t closed hfound

/-- A set that has been asked about is remembered, besides those that were remembered before. -/
theorem mem_closures_closure {s t : StateSet} :
    t ∈ (memo.closure E s).2.closures ↔ t = s ∨ t ∈ memo.closures := by
  rw [closure]
  split
  · rename_i closed hfound
    have hmem : s ∈ memo.closures := Std.ExtTreeMap.mem_iff_isSome_getElem?.mpr (by simp [hfound])
    constructor
    · exact .inr
    · intro h
      exact h.elim (fun heq => heq ▸ hmem) id
  · rw [Std.ExtTreeMap.mem_insert, Std.compare_eq_iff_eq, eq_comm]

/-- Asked about one set after another, a faithful memo answers with their closures, and remembers
these besides those that it remembered before. -/
theorem closureAll_eq (h : memo.Faithful E) (queries : List StateSet) :
    (closureAll E memo queries).1 = queries.map E.closure ∧
      ∀ s, s ∈ (closureAll E memo queries).2.closures ↔ s ∈ queries ∨ s ∈ memo.closures := by
  induction queries generalizing memo with
  | nil => simp [closureAll]
  | cons s queries ih =>
    obtain ⟨hanswers, hmem⟩ := ih (h.closure s)
    simp only [closureAll, hanswers, hmem, closure_fst h, mem_closures_closure, List.map_cons,
      List.mem_cons, true_and]
    intro t
    tauto

end ClosureMemo

namespace EpsilonNFA

variable {E : EpsilonNFA}

/-- The closure has what empty moves lead to. -/
theorem mem_closure_iff_reachable {s : StateSet} (q : State) : q ∈ E.closure s ↔
    ∃ p ∈ s, Relation.ReflTransGen (StateSet.Leads fun p => E.successors p .epsilon) p q := by
  simp only [mem_closure, Trace.nil_iff, moves_iff]
  rfl

/-- A set that empty moves do not leave has the closures of its subsets. -/
theorem mem_of_mem_closure {s : StateSet} {closed : Set State} (hsub : ∀ q ∈ s, q ∈ closed)
    (hmoves : ∀ p q, E.Moves p .epsilon q → p ∈ closed → q ∈ closed) {q : State}
    (hq : q ∈ E.closure s) : q ∈ closed := by
  obtain ⟨p, hp, hpath⟩ := (mem_closure_iff_reachable q).mp hq
  clear hq
  induction hpath with
  | refl => exact hsub p hp
  | tail _ hstep ih => exact hmoves _ _ (moves_iff.mpr hstep) ih

/-- The search with a stack ends after as many steps as the closure of a set has states, and has
found the closure then. This is the least set that has the given states and is not left by empty
moves. A memo that is asked about sets one after another answers with their closures, and remembers
those sets. -/
theorem closure_is_least_closed_set (E : EpsilonNFA) :
    (∀ s n, (Closing.after (fun q => E.successors q .epsilon) s n).stack = [] ↔
      (E.closure s).size ≤ n) ∧
    (∀ s n, (Closing.after (fun q => E.successors q .epsilon) s n).stack = [] →
      (Closing.after (fun q => E.successors q .epsilon) s n).seen = E.closure s) ∧
    (∀ s, (∀ q ∈ s, q ∈ E.closure s) ∧
      (∀ p q, E.Moves p .epsilon q → p ∈ E.closure s → q ∈ E.closure s) ∧
      ∀ closed : Set State, (∀ q ∈ s, q ∈ closed) →
        (∀ p q, E.Moves p .epsilon q → p ∈ closed → q ∈ closed) → ∀ q ∈ E.closure s, q ∈ closed) ∧
    ∀ queries, (ClosureMemo.empty.closureAll E queries).1 = queries.map E.closure ∧
      ∀ s, s ∈ (ClosureMemo.empty.closureAll E queries).2.closures ↔ s ∈ queries := by
  refine ⟨fun s n => Closing.stack_after_eq_nil_iff mem_closure_iff_reachable,
    fun s n => Closing.seen_after mem_closure_iff_reachable, fun s => ⟨?_, ?_, ?_⟩, ?_⟩
  · intro q hq
    exact mem_closure.mpr ⟨q, hq, .refl q⟩
  · intro p q hmove hp
    exact E.isClosed_closure s p hp q (.epsilon hmove (.refl q))
  · exact fun closed hsub hmoves q => mem_of_mem_closure hsub hmoves
  · intro queries
    obtain ⟨hanswers, hmem⟩ := ClosureMemo.closureAll_eq ClosureMemo.faithful_empty queries
    refine ⟨hanswers, fun s => ?_⟩
    rw [hmem]
    simp [ClosureMemo.empty]

/-- Empty moves in a circle of three states, with one state in front of it. The search from a state
of the circle ends after three steps with the circle, which is part of every closed set with this
state. A set that is asked for again is remembered once. -/
theorem closure_is_least_closed_set_circle :
    let E : EpsilonNFA := ⟨.ofList ["0", "1", "2", "3"], .ofText "a",
      .ofTriples [("0", .epsilon, "1"), ("1", .epsilon, "2"), ("2", .epsilon, "0"),
        ("3", .epsilon, "0"), ("0", .symbol 'a', "3")], "0", ∅⟩
    let search := Closing.after (fun q => E.successors q .epsilon) (.single "0")
    let queries : List StateSet := [.single "0", .single "3", .single "0"]
    (search 2).stack ≠ [] ∧ (search 3).stack = [] ∧ (search 3).seen = E.closure (.single "0") ∧
      (E.closure (.single "0")).size ≤ 3 ∧ (∀ q ∈ E.closure (.single "0"), q ≠ "3") ∧
      (ClosureMemo.empty.closureAll E queries).1 = queries.map E.closure := by
  intro E search queries
  obtain ⟨hends, hseen, hleast, hmemo⟩ := closure_is_least_closed_set E
  have hthree : (search 3).stack = [] := by decide +kernel
  have hclosed : ∀ p q, E.Moves p .epsilon q → p ≠ "3" → q ≠ "3" := by
    intro p q hmove _
    have htargets : ∀ e ∈ E.edges, e.label = .epsilon → e.target ≠ "3" := by decide +kernel
    exact htargets ⟨p, .epsilon, q⟩ hmove rfl
  have hcircle : ∀ q ∈ E.closure (.single "0"), q ≠ "3" :=
    (hleast _).2.2 {q | q ≠ "3"} (by simp) hclosed
  exact ⟨by decide +kernel, hthree, hseen _ _ hthree, (hends _ _).mp hthree, hcircle,
    (hmemo queries).1⟩

end EpsilonNFA

end RegularLanguages
