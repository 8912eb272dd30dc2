import Mathlib.Logic.Relation
import RegularLanguages.Automaton.Reach
import RegularLanguages.Proofs.Tables

/-!
# Reachable states are found

The rounds of `StateSet.reachFrom` keep a set of states that is closed except for the states found
in the last round. A round that finds a new state has expanded a source for the first time, so the
number of sources that are not yet expanded bounds the number of rounds that are still needed.
-/

namespace RegularLanguages

namespace StateSet

/-- One state is among the successors of another. -/
def Leads (next : State → StateSet) (p q : State) : Prop := q ∈ next p

variable {next : State → StateSet}

/-- Adding a state that has been seen changes nothing. -/
theorem addNew_of_mem {seen : StateSet} {q : State} (h : q ∈ seen) (fresh : List State) :
    addNew (seen, fresh) q = (seen, fresh) := by
  simp [addNew, h]

/-- Adding a state that has not been seen makes it seen and fresh. -/
theorem addNew_of_notMem {seen : StateSet} {q : State} (h : q ∉ seen) (fresh : List State) :
    addNew (seen, fresh) q = (seen.insert q, q :: fresh) := by
  simp [addNew, h]

/-- Adding new states one by one adds all of them to the set, and lists those that were not in
it. -/
theorem mem_foldl_addNew (states : List State) (seen : StateSet) (fresh : List State) (q : State) :
    (q ∈ (states.foldl addNew (seen, fresh)).1 ↔ q ∈ seen ∨ q ∈ states) ∧
      (q ∈ (states.foldl addNew (seen, fresh)).2 ↔ q ∈ fresh ∨ (q ∈ states ∧ q ∉ seen)) := by
  induction states generalizing seen fresh with
  | nil => simp
  | cons p states ih =>
    rw [List.foldl_cons]
    by_cases hp : p ∈ seen
    · rw [addNew_of_mem hp, (ih seen fresh).1, (ih seen fresh).2]
      by_cases hq : q = p <;> simp [hq, hp]
    · rw [addNew_of_notMem hp, (ih _ _).1, (ih _ _).2, FiniteSet.mem_insert, List.mem_cons,
        List.mem_cons]
      by_cases hq : q = p <;> simp [hq, hp]

/-- A set that is closed under successors holds all that can be reached from it. -/
theorem reachable_iff_mem_of_closed {seen : StateSet}
    (hclosed : ∀ p ∈ seen, ∀ q ∈ next p, q ∈ seen) (q : State) :
    (∃ p ∈ seen, Relation.ReflTransGen (Leads next) p q) ↔ q ∈ seen := by
  constructor
  · intro h
    obtain ⟨p, hp, hpath⟩ := h
    induction hpath with
    | refl => exact hp
    | tail _ hstep ih => exact hclosed _ ih _ hstep
  · intro hq
    exact ⟨q, hq, .refl⟩

/-- All states of a set have been expanded except for the fresh ones. -/
structure Expanded (next : State → StateSet) (seen : StateSet) (fresh : List State) : Prop where
  fresh_mem : ∀ q ∈ fresh, q ∈ seen
  closed : ∀ p ∈ seen, p ∉ fresh → ∀ q ∈ next p, q ∈ seen

/-- The sources that have not been expanded yet. -/
def unexpanded (sources : Finset State) (seen : StateSet) (fresh : List State) : Finset State :=
  sources.filter fun p => p ∈ fresh ∨ p ∉ seen

section Round

variable {seen seen' : StateSet} {fresh rest rest' todo : List State}

/-- A round adds the successors of the fresh states, of which the new ones join the rest of the
states that are to be expanded. -/
theorem mem_round
    (hround : (fresh.flatMap fun q => (next q).toList).foldl addNew (seen, rest) = (seen', rest'))
    (q : State) :
    (q ∈ seen' ↔ q ∈ seen ∨ ∃ p ∈ fresh, q ∈ next p) ∧
      (q ∈ rest' ↔ q ∈ rest ∨ ((∃ p ∈ fresh, q ∈ next p) ∧ q ∉ seen)) := by
  have hmem := mem_foldl_addNew (fresh.flatMap fun q => (next q).toList) seen rest q
  rw [hround] at hmem
  simpa using hmem

/-- After a round, only the rest and the states that were found by it are not expanded. -/
theorem Expanded.round (h : Expanded next seen todo)
    (htodo : ∀ q, q ∈ todo ↔ q ∈ fresh ∨ q ∈ rest)
    (hround : (fresh.flatMap fun q => (next q).toList).foldl addNew (seen, rest) = (seen', rest')) :
    Expanded next seen' rest' := by
  have hseen (r : State) := (mem_round hround r).1
  have hnew (r : State) := (mem_round hround r).2
  constructor
  · intro r hr
    rcases (hnew r).mp hr with hr | hr
    · exact (hseen r).mpr (.inl (h.fresh_mem r ((htodo r).mpr (.inr hr))))
    · exact (hseen r).mpr (.inr hr.1)
  · intro p hp hold r hr
    have hpseen : p ∈ seen := by
      by_contra hnot
      exact hold ((hnew p).mpr (.inr ⟨((hseen p).mp hp).resolve_left hnot, hnot⟩))
    by_cases hpfresh : p ∈ fresh
    · exact (hseen r).mpr (.inr ⟨p, hpfresh, hr⟩)
    · have hpold : p ∉ todo := by
        rw [htodo, not_or]
        exact ⟨hpfresh, fun hrest => hold ((hnew p).mpr (.inl hrest))⟩
      exact (hseen r).mpr (.inl (h.closed p hpseen hpold r hr))

/-- A round does not change what can be reached. -/
theorem Expanded.reachable_round (h : Expanded next seen todo)
    (htodo : ∀ q, q ∈ todo ↔ q ∈ fresh ∨ q ∈ rest)
    (hround : (fresh.flatMap fun q => (next q).toList).foldl addNew (seen, rest) = (seen', rest'))
    (q : State) : (∃ p ∈ seen', Relation.ReflTransGen (Leads next) p q) ↔
      ∃ p ∈ seen, Relation.ReflTransGen (Leads next) p q := by
  have hseen (r : State) := (mem_round hround r).1
  constructor
  · intro hreached
    obtain ⟨p, hp, hpath⟩ := hreached
    rcases (hseen p).mp hp with hp | ⟨r, hr, hstep⟩
    · exact ⟨p, hp, hpath⟩
    · exact ⟨r, h.fresh_mem r ((htodo r).mpr (.inl hr)), .head hstep hpath⟩
  · intro hreached
    obtain ⟨p, hp, hpath⟩ := hreached
    exact ⟨p, (hseen p).mpr (.inl hp), hpath⟩

/-- A round that finds a state has expanded a source. -/
theorem Expanded.card_unexpanded_lt (h : Expanded next seen fresh) {sources : Finset State}
    (hsources : ∀ p q, q ∈ next p → p ∈ sources)
    (hround : (fresh.flatMap fun q => (next q).toList).foldl addNew (seen, []) = (seen', rest'))
    {s : State} (hs : s ∈ rest') :
    (unexpanded sources seen' rest').card < (unexpanded sources seen fresh).card := by
  have hseen (r : State) := (mem_round hround r).1
  have hnew (r : State) : r ∈ rest' ↔ (∃ p ∈ fresh, r ∈ next p) ∧ r ∉ seen := by
    simpa using (mem_round hround r).2
  -- The predecessor of the state that was found need not be expanded again.
  obtain ⟨⟨p, hp, hstep⟩, -⟩ := (hnew s).mp hs
  apply Finset.card_lt_card
  rw [Finset.ssubset_iff_of_subset]
  · refine ⟨p, ?_, ?_⟩
    · simp [unexpanded, hsources p s hstep, hp]
    · simp [unexpanded, hnew, hseen, h.fresh_mem p hp]
  · intro r hr
    simp only [unexpanded, Finset.mem_filter, hseen, hnew] at hr ⊢
    tauto

/-- If all sources are expanded, the set is closed. -/
theorem Expanded.closed_of_unexpanded_eq (h : Expanded next seen fresh) {sources : Finset State}
    (hsources : ∀ p q, q ∈ next p → p ∈ sources) (hnone : unexpanded sources seen fresh = ∅) :
    ∀ p ∈ seen, ∀ q ∈ next p, q ∈ seen := by
  intro p hp q hq
  have hnot : p ∉ unexpanded sources seen fresh := by simp [hnone]
  simp only [unexpanded, Finset.mem_filter, hsources p q hq, true_and, not_or] at hnot
  exact h.closed p hp hnot.1 q hq

end Round

/-- The rounds find what can be reached, if they are not fewer than the sources to be expanded. -/
theorem mem_reachFrom (sources : Finset State) (hsources : ∀ p q, q ∈ next p → p ∈ sources)
    (rounds : Nat) (seen : StateSet) (fresh : List State) (h : Expanded next seen fresh)
    (hrounds : (unexpanded sources seen fresh).card ≤ rounds) (q : State) :
    q ∈ reachFrom next rounds seen fresh ↔
      ∃ p ∈ seen, Relation.ReflTransGen (Leads next) p q := by
  induction rounds generalizing seen fresh with
  | zero =>
    have hnone := Finset.card_eq_zero.mp (Nat.le_zero.mp hrounds)
    rw [reachFrom, reachable_iff_mem_of_closed (h.closed_of_unexpanded_eq hsources hnone)]
  | succ rounds ih =>
    rw [reachFrom]
    generalize hround : (fresh.flatMap fun q => (next q).toList).foldl addNew (seen, []) = result
    obtain ⟨seen', fresh'⟩ := result
    have htodo (p : State) : p ∈ fresh ↔ p ∈ fresh ∨ p ∈ ([] : List State) := by simp
    have hexpanded := h.round htodo hround
    rw [← h.reachable_round htodo hround]
    cases fresh' with
    | nil =>
      change q ∈ seen' ↔ _
      rw [reachable_iff_mem_of_closed fun p hp => hexpanded.closed p hp List.not_mem_nil]
    | cons s rest =>
      have hless := h.card_unexpanded_lt hsources hround List.mem_cons_self
      exact ih seen' (s :: rest) hexpanded (by omega)

/-- The states that are reached from a set, if the number of sources is not underestimated. -/
theorem mem_reach (sources : Finset State) (hsources : ∀ p q, q ∈ next p → p ∈ sources)
    {count : Nat} (hcount : sources.card ≤ count) (start : StateSet) (q : State) :
    q ∈ reach next count start ↔ ∃ p ∈ start, Relation.ReflTransGen (Leads next) p q := by
  apply mem_reachFrom sources hsources
  · refine ⟨fun p hp => Std.ExtTreeSet.mem_toList.mp hp, ?_⟩
    intro p hp hnot
    exact absurd (Std.ExtTreeSet.mem_toList.mpr hp) hnot
  · exact (Finset.card_filter_le _ _).trans hcount

end StateSet

end RegularLanguages
