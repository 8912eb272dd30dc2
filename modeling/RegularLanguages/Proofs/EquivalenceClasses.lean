import RegularLanguages.Proofs.Minimality

/-!
# Classes of equivalent states

Refinement divides all states of an automaton, whether they can be reached or not. Every state is
in one class, and two states share a class if on every word either both runs are stuck or both end,
in two final states or in two others. In a complete automaton these are the states from which the
same words are accepted.
-/

namespace RegularLanguages.DFA

open SuccessorRows

variable {D : DFA} {p q : State}

/-- A word shows the same of two states if both runs are stuck, or both end and agree on whether
they end in a final state. -/
theorem outcome_eq_iff {w : Word} : D.outcome p w = D.outcome q w ↔
    Option.Rel (fun r s => r ∈ D.finals ↔ s ∈ D.finals) (D.runFrom p w) (D.runFrom q w) := by
  rw [outcome, outcome]
  cases D.runFrom p w with
  | none => cases D.runFrom q w <;> simp
  | some r =>
    cases D.runFrom q w with
    | none => simp
    | some s =>
      rw [Option.map_some, Option.map_some, Option.some.injEq, Option.rel_some_some,
        Bool.eq_iff_iff, Automaton.isFinal_iff, Automaton.isFinal_iff]

/-- Classes at different places of the partition have no state in common. -/
theorem pairwise_classes_indistinguishable (hD : D.WellFormed) :
    D.indistinguishable.classes.Pairwise fun c d => ∀ q ∈ c, q ∉ d := by
  obtain ⟨classes, hrun, hdivides, -⟩ := D.exists_refined hD
  rw [classes_indistinguishable hrun]
  apply List.Pairwise.filter
  rw [List.map_map, List.pairwise_map, List.pairwise_iff_getElem]
  intro i j hi hj hij q hqi hqj
  rw [Array.length_toList] at hi hj
  rw [Array.getElem_toList, Function.comp_apply, mem_ofList_filterMap] at hqi hqj
  have hclass {k : Nat} (hk : k < (atFirst D.states.size classes).size)
      (hmem : D.number q ∈ (atFirst D.states.size classes)[k]) :
      (atFirst D.states.size classes)[k] ∈ classes ∧
        (atFirst D.states.size classes)[k].headD D.states.size = k := by
    have hne := List.ne_nil_of_mem hmem
    exact ⟨(mem_atFirst hdivides hne).mp (Array.getElem_mem hk),
      headD_of_getElem?_atFirst (Array.getElem?_eq_getElem hk) hne⟩
  obtain ⟨hci, hheadi⟩ := hclass hi hqi.2
  obtain ⟨hcj, hheadj⟩ := hclass hj hqj.2
  rw [← hheadi, ← hheadj, hdivides.eq_of_mem hci hcj hqi.2 hqj.2] at hij
  exact Nat.lt_irrefl _ hij

/-- Every state is in one class, at one place. -/
theorem existsUnique_class (hD : D.WellFormed) (hq : q ∈ D.states) :
    ∃! i : Nat, ∃ c : StateSet, D.indistinguishable.classes[i]? = some c ∧ q ∈ c := by
  have hdisjoint := pairwise_classes_indistinguishable hD
  have hnot {i j : Nat} {c d : StateSet} (hc : D.indistinguishable.classes[i]? = some c)
      (hd : D.indistinguishable.classes[j]? = some d) (hqc : q ∈ c) (hqd : q ∈ d) : ¬i < j := by
    intro hij
    obtain ⟨hi, rfl⟩ := List.getElem?_eq_some_iff.mp hc
    obtain ⟨hj, rfl⟩ := List.getElem?_eq_some_iff.mp hd
    exact List.pairwise_iff_getElem.mp hdisjoint i j hi hj hij q hqc hqd
  obtain ⟨c, hc, hqc⟩ := (classifies_indistinguishable hD).covers q hq
  obtain ⟨i, hi⟩ := List.mem_iff_getElem?.mp hc
  refine ⟨i, ⟨c, hi, hqc⟩, ?_⟩
  intro j h
  obtain ⟨d, hj, hqd⟩ := h
  exact Nat.le_antisymm (Nat.not_lt.mp (hnot hi hj hqc hqd)) (Nat.not_lt.mp (hnot hj hi hqd hqc))

/-- States share a class if no word tells them apart. -/
theorem exists_class_iff (hD : D.WellFormed) (hp : p ∈ D.states) (hq : q ∈ D.states) :
    (∃ c ∈ D.indistinguishable.classes, p ∈ c ∧ q ∈ c) ↔ D.Indistinguishable p q := by
  have hclasses := classifies_indistinguishable hD
  constructor
  · intro h
    obtain ⟨c, hc, hpc, hqc⟩ := h
    exact ((hclasses.mem_iff c hc p hpc q).mp hqc).2
  · intro h
    obtain ⟨c, hc, hpc⟩ := hclasses.covers p hp
    exact ⟨c, hc, hpc, (hclasses.mem_iff c hc p hpc q).mpr ⟨hq, h⟩⟩

/-- Indistinguishable states accept the same words. -/
theorem Indistinguishable.acceptsFrom_eq (h : D.Indistinguishable p q) (w : Word) :
    D.acceptsFrom p w = D.acceptsFrom q w := by
  rw [acceptsFrom_eq_any_outcome, acceptsFrom_eq_any_outcome, h w]

/-- The classes of a well-formed automaton hold states only, and none is empty. Every state is in
exactly one of them. Two states share a class exactly if on every word both runs are stuck, or both
end in final states, or both in others; and if the automaton is complete, exactly if the same words
are accepted from both. -/
theorem classes_are_of_equivalent_states (D : DFA) (hD : D.WellFormed) :
    (∀ q ∈ D.states,
      ∃! i : Nat, ∃ c : StateSet, D.indistinguishable.classes[i]? = some c ∧ q ∈ c) ∧
    (∀ c ∈ D.indistinguishable.classes, c ≠ ∅ ∧ ∀ q ∈ c, q ∈ D.states) ∧
    (∀ p ∈ D.states, ∀ q ∈ D.states,
      ((∃ c ∈ D.indistinguishable.classes, p ∈ c ∧ q ∈ c) ↔ ∀ w,
        Option.Rel (fun r s => r ∈ D.finals ↔ s ∈ D.finals) (D.runFrom p w) (D.runFrom q w))) ∧
    (D.isComplete = true → ∀ p ∈ D.states, ∀ q ∈ D.states,
      ((∃ c ∈ D.indistinguishable.classes, p ∈ c ∧ q ∈ c) ↔
        ∀ w, D.acceptsFrom p w = D.acceptsFrom q w)) := by
  have hclasses := classifies_indistinguishable hD
  refine ⟨fun q hq => existsUnique_class hD hq, ?_, ?_, ?_⟩
  · intro c hc
    obtain ⟨q, hq⟩ := hclasses.nonempty c hc
    exact ⟨StateSet.ne_empty_iff.mpr ⟨q, hq⟩, fun r hr => ((hclasses.mem_iff c hc q hq r).mp hr).1⟩
  · intro p hp q hq
    rw [exists_class_iff hD hp hq]
    exact forall_congr' fun w => outcome_eq_iff
  · intro hcomplete p hp q hq
    rw [exists_class_iff hD hp hq]
    exact ⟨Indistinguishable.acceptsFrom_eq,
      indistinguishable_of_acceptsFrom_eq hD hcomplete hp hq⟩

/-- In a complete automaton, a state that cannot be reached shares a class with the initial state,
as one symbol leads from both to the same state, and so the same words are accepted from both. -/
theorem classes_of_unreachable_state :
    let D : DFA := ⟨.ofList ["p", "q", "r"], .ofText "a",
      .ofTriples [("p", 'a', "q"), ("q", 'a', "q"), ("r", 'a', "q")], "p", .ofList ["q"]⟩
    D.WellFormed ∧ D.isComplete = true ∧
      (∃! i : Nat, ∃ c : StateSet, D.indistinguishable.classes[i]? = some c ∧ "r" ∈ c) ∧
      (∀ w, D.acceptsFrom "p" w = D.acceptsFrom "r" w) ∧
      ¬∃ c ∈ D.indistinguishable.classes, "p" ∈ c ∧ "q" ∈ c := by
  intro D
  have hD : D.WellFormed := by
    apply wellFormed_ofTriples <;> simp_all [Alphabet.ofText]
    grind
  have hcomplete : D.isComplete = true := by decide +kernel
  have hshared : ∃ c ∈ D.indistinguishable.classes, "p" ∈ c ∧ "r" ∈ c := by decide +kernel
  have hp : "p" ∈ D.states := by decide +kernel
  have hq : "q" ∈ D.states := by decide +kernel
  have hr : "r" ∈ D.states := by decide +kernel
  obtain ⟨hunique, -, hruns, hresiduals⟩ := classes_are_of_equivalent_states D hD
  refine ⟨hD, hcomplete, hunique "r" hr, (hresiduals hcomplete "p" hp "r" hr).mp hshared, ?_⟩
  rw [hruns "p" hp "q" hq]
  intro hsame
  have hempty := hsame []
  rw [runFrom_nil, runFrom_nil, Option.rel_some_some] at hempty
  revert hempty
  decide +kernel

end RegularLanguages.DFA
