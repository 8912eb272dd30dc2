import RegularLanguages.Proofs.Acceptance
import RegularLanguages.Proofs.Refinement
import RegularLanguages.Proofs.WellFormed

/-!
# States that no word tells apart

A word tells two states apart if it is stuck from one of them only, or if its runs end in a final
state and in another one. After a number of rounds of refinement, two states are in a common class
if no word of at most that many symbols tells them apart. When a round adds no class, longer words
do not tell more states apart, and so the classes are those of states that no word tells apart.
-/

namespace RegularLanguages.DFA

open SuccessorRows

/-- What a word shows of a state: whether the run from it ends in a final state, if it ends. -/
def outcome (D : DFA) (q : State) (w : Word) : Option Bool := (D.runFrom q w).map D.isFinal

/-- No word of at most `k` symbols tells the states apart. -/
def AgreeUpTo (D : DFA) (k : Nat) (p q : State) : Prop :=
  ∀ w : Word, w.length ≤ k → D.outcome p w = D.outcome q w

/-- No word tells the states apart. -/
def Indistinguishable (D : DFA) (p q : State) : Prop := ∀ w, D.outcome p w = D.outcome q w

variable {D : DFA} {p q : State}

/-- The empty word shows whether a state is final. -/
@[simp] theorem outcome_nil : D.outcome q [] = some (D.isFinal q) := rfl

/-- The outcome of a word is that of its rest from the successor. -/
@[simp] theorem outcome_cons {a : Symbol} {w : Word} :
    D.outcome q (a :: w) = (D.successor? q a).bind fun r => D.outcome r w := by
  rw [outcome, runFrom_cons, Option.map_bind]
  rfl

/-- A word is accepted from a state if its outcome is a final state. -/
theorem acceptsFrom_eq_any_outcome (w : Word) : D.acceptsFrom q w = (D.outcome q w).any id := by
  rw [acceptsFrom, outcome]
  cases D.runFrom q w <;> rfl

/-- The empty word does not tell states apart if both or none are final. -/
theorem agreeUpTo_zero : D.AgreeUpTo 0 p q ↔ D.isFinal p = D.isFinal q := by
  constructor
  · intro h
    simpa using h [] le_rfl
  · intro h w hw
    obtain rfl := List.length_eq_zero_iff.mp (Nat.le_zero.mp hw)
    simpa using h

/-- States that agree on more words agree on fewer. -/
theorem AgreeUpTo.mono {k l : Nat} (h : D.AgreeUpTo l p q) (hkl : k ≤ l) : D.AgreeUpTo k p q :=
  fun w hw => h w (hw.trans hkl)

/-- One symbol more shows what the successors show. -/
theorem agreeUpTo_succ {k : Nat} : D.AgreeUpTo (k + 1) p q ↔ D.AgreeUpTo 0 p q ∧
    ∀ a, Option.Rel (D.AgreeUpTo k) (D.successor? p a) (D.successor? q a) := by
  constructor
  · intro h
    refine ⟨fun w hw => h w (by omega), fun a => ?_⟩
    have hread (w : Word) (hw : w.length ≤ k) :
        ((D.successor? p a).bind fun r => D.outcome r w) =
          (D.successor? q a).bind fun r => D.outcome r w := by
      simpa using h (a :: w) (by simpa using hw)
    cases hp : D.successor? p a with
    | none =>
      cases hq : D.successor? q a with
      | none => exact .none
      | some s => simpa [hp, hq] using hread [] (Nat.zero_le k)
    | some r =>
      cases hq : D.successor? q a with
      | none => simpa [hp, hq] using hread [] (Nat.zero_le k)
      | some s => exact .some fun w hw => by simpa [hp, hq] using hread w hw
  · intro h w hw
    obtain ⟨hzero, hsucc⟩ := h
    cases w with
    | nil => exact hzero [] le_rfl
    | cons a w =>
      rw [outcome_cons, outcome_cons]
      have hrel := hsucc a
      revert hrel
      generalize D.successor? p a = r
      generalize D.successor? q a = s
      intro h
      rcases h with hrs | _
      · exact hrs w (by simpa using hw)
      · rfl

/-- The run from a state of a well-formed automaton ends in a state. -/
theorem runFrom_mem (hD : D.WellFormed) {w : Word} (hp : p ∈ D.states)
    (h : D.runFrom p w = some q) : q ∈ D.states := hD.mem_of_trace hp (trace_iff.mpr h)

/-- If longer words tell no more states apart, then no words tell more states apart. -/
theorem indistinguishable_of_stable (hD : D.WellFormed) {k : Nat}
    (hstable : ∀ p ∈ D.states, ∀ q ∈ D.states, D.AgreeUpTo k p q → D.AgreeUpTo (k + 1) p q)
    (hp : p ∈ D.states) (hq : q ∈ D.states) (h : D.AgreeUpTo k p q) : D.Indistinguishable p q := by
  intro w
  induction w generalizing p q with
  | nil => exact h [] (Nat.zero_le k)
  | cons a w ih =>
    have hrel := (agreeUpTo_succ.mp (hstable p hp q hq h)).2 a
    rw [outcome_cons, outcome_cons]
    cases hr : D.successor? p a with
    | none =>
      cases hs : D.successor? q a with
      | none => rfl
      | some s => simp [hr, hs] at hrel
    | some r =>
      cases hs : D.successor? q a with
      | none => simp [hr, hs] at hrel
      | some s =>
        rw [hr, hs, Option.rel_some_some] at hrel
        exact ih (successor_mem hD hr) (successor_mem hD hs) hrel

section Numbers

/-- The position of a state in the ascending list of states. -/
def number (D : DFA) (q : State) : Nat := D.states.toList.idxOf q

/-- States have numbers below the number of states. -/
theorem number_lt (hq : q ∈ D.states) : D.number q < D.states.size := by
  rw [← Std.ExtTreeSet.length_toList]
  exact List.idxOf_lt_length_of_mem (Std.ExtTreeSet.mem_toList.mpr hq)

/-- The list of the states has as many members as there are states. -/
theorem size_toArray : D.states.toArray.size = D.states.size := by
  rw [FiniteSet.toArray_eq, List.size_toArray, Std.ExtTreeSet.length_toList]

/-- A state stands in the ascending list at its number. -/
theorem getElem?_toArray_iff {i : Nat} :
    D.states.toArray[i]? = some q ↔ q ∈ D.states ∧ D.number q = i := by
  rw [FiniteSet.toArray_eq, List.getElem?_toArray]
  constructor
  · intro h
    refine ⟨Std.ExtTreeSet.mem_toList.mp (List.mem_of_getElem? h), ?_⟩
    obtain ⟨hi, rfl⟩ := List.getElem?_eq_some_iff.mp h
    exact (FiniteSet.nodup_toList _).idxOf_getElem i hi
  · intro h
    obtain ⟨hq, rfl⟩ := h
    exact List.getElem?_idxOf (Std.ExtTreeSet.mem_toList.mpr hq)

/-- The table of numbers gives each state its number. -/
theorem getElem?_numbers (hq : q ∈ D.states) : D.numbers[q]? = some (D.number q) := by
  apply Std.ExtTreeMap.getElem?_ofList_of_mem Std.compare_self
  · rw [← List.pairwise_map (f := Prod.fst) (R := fun p q => ¬compare p q = .eq),
      List.zipIdx_map_fst]
    exact Std.ExtTreeSet.distinct_toList
  · rw [List.mk_mem_zipIdx_iff_getElem?]
    exact List.getElem?_idxOf (Std.ExtTreeSet.mem_toList.mpr hq)

/-- There is a row of successors for each state. -/
theorem size_successorRows : D.successorRows.size = D.states.size := by
  simp [successorRows]

/-- The row of a state has the numbers of its successors. -/
theorem getD_successorRows (hq : q ∈ D.states) :
    D.successorRows.getD (D.number q) [] =
      D.alphabet.toList.map fun a => (D.successor? q a).bind fun r => D.numbers[r]? := by
  have hget : D.states.toList[D.number q]? = some q :=
    List.getElem?_idxOf (Std.ExtTreeSet.mem_toList.mpr hq)
  simp [successorRows, Array.getD_eq_getD_getElem?, hget]

variable {classes : List (List Nat)}

/-- Two successors are at the same position if both are missing or their classes are the same. -/
theorem position_eq_iff (h : Divides classes (List.range D.states.size)) {r s : Option State}
    (hr : ∀ p ∈ r, p ∈ D.states) (hs : ∀ q ∈ s, q ∈ D.states) :
    ((r.bind fun p => D.numbers[p]?).bind fun i => (positions D.states.size classes)[i]?) =
        ((s.bind fun q => D.numbers[q]?).bind fun i => (positions D.states.size classes)[i]?) ↔
      Option.Rel (fun p q => Together classes (D.number p) (D.number q)) r s := by
  have hsome {i : Nat} (hi : i < D.states.size) :
      (positions D.states.size classes)[i]? ≠ none := by
    obtain ⟨c, hc, hmem⟩ := h.together_self (List.mem_range.mpr hi)
    obtain ⟨k, hk⟩ := List.mem_iff_getElem?.mp hc
    simp [getElem?_positions h hk hmem.1]
  cases r with
  | none =>
    cases s with
    | none => simp
    | some q =>
      have hq := hs q rfl
      simpa [getElem?_numbers hq] using (hsome (number_lt hq)).symm
  | some p =>
    have hp := hr p rfl
    cases s with
    | none => simpa [getElem?_numbers hp] using hsome (number_lt hp)
    | some q =>
      have hq := hs q rfl
      simp only [Option.bind_some, getElem?_numbers hp, getElem?_numbers hq, Option.rel_some_some]
      exact positions_eq_iff h (number_lt hp) (number_lt hq)

/-- States with the same key in a round have successors in the same class on every symbol. -/
theorem signature_eq_iff (hD : D.WellFormed)
    (h : Divides classes (List.range D.states.size)) (hp : p ∈ D.states) (hq : q ∈ D.states) :
    D.successorRows.signature (positions D.states.size classes) (D.number p) =
        D.successorRows.signature (positions D.states.size classes) (D.number q) ↔
      ∀ a, Option.Rel (fun r s => Together classes (D.number r) (D.number s))
        (D.successor? p a) (D.successor? q a) := by
  simp only [signature, getD_successorRows hp, getD_successorRows hq, List.map_map,
    List.map_inj_left, Std.ExtTreeSet.mem_toList, Function.comp_apply]
  constructor
  · intro heq a
    by_cases ha : a ∈ D.alphabet
    · exact (position_eq_iff h (fun _ hr => successor_mem hD hr)
        fun _ hs => successor_mem hD hs).mp (heq a ha)
    · rw [successor?_of_foreign hD ha, successor?_of_foreign hD ha]
      exact .none
  · intro hrel a _
    exact (position_eq_iff h (fun _ hr => successor_mem hD hr)
      fun _ hs => successor_mem hD hs).mpr (hrel a)

/-- At first, the classes tell final states from others. -/
theorem divides_finality : Divides D.finality (List.range D.states.size) := by
  rw [← size_toArray]
  exact divides_groupsBy _ _

/-- The first division of the states puts those together that the empty word does not tell apart. -/
theorem together_finality (hp : p ∈ D.states) (hq : q ∈ D.states) :
    Together D.finality (D.number p) (D.number q) ↔ D.AgreeUpTo 0 p q := by
  have hfound {q : State} (hq : q ∈ D.states) : D.states.toArray[D.number q]? = some q :=
    getElem?_toArray_iff.mpr ⟨hq, rfl⟩
  rw [finality, together_groupsBy, agreeUpTo_zero]
  simp only [hfound hp, hfound hq, Option.any_some, size_toArray, List.mem_range, number_lt hp,
    number_lt hq, true_and]

/-- The classes are those of states which no word of at most `k` symbols tells apart. -/
def Separates (D : DFA) (classes : List (List Nat)) (k : Nat) : Prop :=
  ∀ p ∈ D.states, ∀ q ∈ D.states,
    (Together classes (D.number p) (D.number q) ↔ D.AgreeUpTo k p q)

/-- A round of refinement looks one symbol further. -/
theorem Separates.refine (hD : D.WellFormed) {k : Nat}
    (hdivides : Divides classes (List.range D.states.size)) (h : D.Separates classes k) :
    D.Separates (D.successorRows.refine classes) (k + 1) := by
  intro p hp q hq
  have hrel (a : Symbol) :
      Option.Rel (fun r s => Together classes (D.number r) (D.number s))
          (D.successor? p a) (D.successor? q a) ↔
        Option.Rel (D.AgreeUpTo k) (D.successor? p a) (D.successor? q a) := by
    cases hr : D.successor? p a with
    | none => cases D.successor? q a <;> simp
    | some r =>
      cases hs : D.successor? q a with
      | none => simp
      | some s => simp [h r (successor_mem hD hr) s (successor_mem hD hs)]
  rw [together_refine, size_successorRows, signature_eq_iff hD hdivides hp hq, h p hp q hq,
    agreeUpTo_succ, forall_congr' hrel]
  constructor
  · intro h
    obtain ⟨hagree, hsucc⟩ := h
    exact ⟨hagree.mono (Nat.zero_le k), hsucc⟩
  · intro hagree
    exact ⟨(agreeUpTo_succ.mpr hagree).mono (Nat.le_succ k), hagree.2⟩

/-- The refined classes are those of states that no word tells apart. -/
theorem exists_refined (hD : D.WellFormed) : ∃ classes,
    Id.run (D.successorRows.refineAll Meter.free (D.states.toArray.size + 1) D.finality) =
        classes ∧
      Divides classes (List.range D.states.size) ∧
      ∀ p ∈ D.states, ∀ q ∈ D.states,
        (Together classes (D.number p) (D.number q) ↔ D.Indistinguishable p q) := by
  have hsize := D.size_successorRows
  have hstep : ∀ classes, Divides classes (List.range D.successorRows.size) →
      (∃ k, D.Separates classes k) → ∃ k, D.Separates (D.successorRows.refine classes) k := by
    intro classes hdivides h
    obtain ⟨k, hk⟩ := h
    exact ⟨k + 1, hk.refine hD (hsize ▸ hdivides)⟩
  have hfirst : ∃ k, D.Separates D.finality k := ⟨0, fun p hp q hq => together_finality hp hq⟩
  have hrounds : D.successorRows.size < D.states.toArray.size + 1 + D.finality.length := by
    rw [hsize, size_toArray]
    omega
  obtain ⟨last, hdivides, ⟨k, hlast⟩, hlength, hrun⟩ := exists_refineAll_eq
    (motive := fun classes => ∃ k, D.Separates classes k) hstep (hsize ▸ divides_finality) hrounds
    hfirst
  refine ⟨D.successorRows.refine last, hrun, ?_, ?_⟩
  · rw [← size_successorRows]
    exact divides_refine hdivides
  · intro p hp q hq
    have hnext := hlast.refine hD (hsize ▸ hdivides)
    rw [together_refine_of_length_eq hdivides hlength, hlast p hp q hq]
    constructor
    · refine indistinguishable_of_stable hD (fun p hp q hq hagree => ?_) hp hq
      rw [← hnext p hp q hq, together_refine_of_length_eq hdivides hlength, hlast p hp q hq]
      exact hagree
    · exact fun h w _ => h w

end Numbers

/-- The classes of a partition are those of a relation on a set of states. -/
structure Classifies (R : State → State → Prop) (states : StateSet) (P : Partition State) :
    Prop where
  nonempty : ∀ c ∈ P.classes, ∃ q, q ∈ c
  covers : ∀ q ∈ states, ∃ c ∈ P.classes, q ∈ c
  mem_iff : ∀ c ∈ P.classes, ∀ p ∈ c, ∀ q, q ∈ c ↔ q ∈ states ∧ R p q

/-- A group of numbers as a set of states. -/
theorem mem_ofList_filterMap {c : List Nat} :
    q ∈ Std.ExtTreeSet.ofList (c.filterMap fun i => D.states.toArray[i]?) ↔
      q ∈ D.states ∧ D.number q ∈ c := by
  rw [Std.ExtTreeSet.mem_ofList, List.contains_iff_mem, List.mem_filterMap]
  simp only [getElem?_toArray_iff]
  constructor
  · intro h
    obtain ⟨i, hi, hq, rfl⟩ := h
    exact ⟨hq, hi⟩
  · intro h
    obtain ⟨hq, hi⟩ := h
    exact ⟨_, hi, hq, rfl⟩

/-- A class of numbers has some state. -/
theorem exists_mem_ofList_filterMap {classes : List (List Nat)}
    (hdivides : Divides classes (List.range D.states.size)) {c : List Nat} (hc : c ∈ classes) :
    ∃ q, q ∈ Std.ExtTreeSet.ofList (c.filterMap fun i => D.states.toArray[i]?) := by
  obtain ⟨i, hi⟩ := List.exists_mem_of_ne_nil c (hdivides.nonempty c hc)
  have hrange := hdivides.perm.mem_iff.mp (List.mem_flatten.mpr ⟨c, hc, hi⟩)
  rw [List.mem_range, ← size_toArray] at hrange
  obtain ⟨hq, hnumber⟩ := getElem?_toArray_iff.mp (Array.getElem?_eq_getElem hrange)
  exact ⟨_, mem_ofList_filterMap.mpr ⟨hq, by rwa [hnumber]⟩⟩

/-- The partition has the refined classes as sets of states, in the order of their least numbers. -/
theorem classes_indistinguishable {classes : List (List Nat)}
    (hrun : Id.run (D.successorRows.refineAll Meter.free (D.states.toArray.size + 1) D.finality) =
      classes) :
    D.indistinguishable.classes =
      (((atFirst D.states.size classes).toList.map fun c =>
        c.filterMap fun i => D.states.toArray[i]?).map fun g : List State =>
          Std.ExtTreeSet.ofList g).filter fun s => !s.isEmpty := by
  rw [← hrun, ← size_toArray]
  rfl

/-- A set of states is in the partition if it comes from one of the refined classes. -/
theorem mem_classes_indistinguishable {classes : List (List Nat)}
    (hrun : Id.run (D.successorRows.refineAll Meter.free (D.states.toArray.size + 1) D.finality) =
      classes) (hdivides : Divides classes (List.range D.states.size)) {s : StateSet} :
    s ∈ D.indistinguishable.classes ↔ ∃ c ∈ classes,
      s = Std.ExtTreeSet.ofList (c.filterMap fun i => D.states.toArray[i]?) := by
  simp only [classes_indistinguishable hrun, List.mem_filter, List.mem_map, Array.mem_toList_iff,
    exists_exists_and_eq_and]
  constructor
  · intro h
    obtain ⟨⟨c, hc, rfl⟩, hnonempty⟩ := h
    have hne : c ≠ [] := by
      intro h
      subst h
      simp at hnonempty
    exact ⟨c, (mem_atFirst hdivides hne).mp hc, rfl⟩
  · intro h
    obtain ⟨c, hc, rfl⟩ := h
    have hne := hdivides.nonempty c hc
    refine ⟨⟨c, (mem_atFirst hdivides hne).mpr hc, rfl⟩, ?_⟩
    rw [Bool.not_eq_true', ← Bool.not_eq_true, Std.ExtTreeSet.isEmpty_iff]
    intro hempty
    obtain ⟨q, hq⟩ := exists_mem_ofList_filterMap hdivides hc
    simp [hempty] at hq

/-- The partition has the classes of states that no word tells apart. -/
theorem classifies_indistinguishable (hD : D.WellFormed) :
    Classifies D.Indistinguishable D.states D.indistinguishable := by
  obtain ⟨classes, hrun, hdivides, hclasses⟩ := D.exists_refined hD
  have hmem (s : StateSet) := mem_classes_indistinguishable (s := s) hrun hdivides
  refine ⟨?_, ?_, ?_⟩
  · intro s hs
    obtain ⟨c, hc, rfl⟩ := (hmem s).mp hs
    exact exists_mem_ofList_filterMap hdivides hc
  · intro q hq
    obtain ⟨c, hc, hi, -⟩ := hdivides.together_self (List.mem_range.mpr (number_lt hq))
    exact ⟨_, (hmem _).mpr ⟨c, hc, rfl⟩, mem_ofList_filterMap.mpr ⟨hq, hi⟩⟩
  · intro s hs p hp q
    obtain ⟨c, hc, rfl⟩ := (hmem s).mp hs
    obtain ⟨hp, hpc⟩ := mem_ofList_filterMap.mp hp
    rw [mem_ofList_filterMap]
    refine and_congr_right fun hq => ?_
    rw [← hclasses p hp q hq]
    constructor
    · exact fun hqc => ⟨c, hc, hpc, hqc⟩
    · intro h
      obtain ⟨d, hd, hpd, hqd⟩ := h
      rwa [hdivides.eq_of_mem hc hd hpc hpd]

end RegularLanguages.DFA
