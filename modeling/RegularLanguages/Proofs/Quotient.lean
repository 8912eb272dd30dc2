import RegularLanguages.Proofs.Indistinguishable
import RegularLanguages.Proofs.Names

/-!
# Merging indistinguishable states

Each state is sent to the name of its class. Since the successors of indistinguishable states are
indistinguishable, the transitions of any state of a class are those of the class, and a word shows
of a class what it shows of its states.
-/

namespace RegularLanguages

/-- A value is found in a map made of a list if the list has it under the key and no other. -/
theorem getElem?_ofList_of_forall_eq {α β : Type} [Ord α] [Std.TransOrd α] [Std.LawfulEqOrd α]
    {l : List (α × β)} {k : α} {v : β} (hmem : (k, v) ∈ l) (hunique : ∀ u, (k, u) ∈ l → u = v) :
    (Std.ExtTreeMap.ofList l)[k]? = some v := by
  have hinsert (l : List (α × β)) (m : Std.ExtTreeMap α β) (hunique : ∀ u, (k, u) ∈ l → u = v)
      (hsome : (k, v) ∈ l ∨ m[k]? = some v) : (m.insertMany l)[k]? = some v := by
    induction l generalizing m with
    | nil => simpa using hsome
    | cons entry l ih =>
      obtain ⟨j, u⟩ := entry
      rw [Std.ExtTreeMap.insertMany_cons]
      apply ih _ fun u hu => hunique u (List.mem_cons_of_mem _ hu)
      rw [Std.ExtTreeMap.getElem?_insert]
      by_cases hj : j = k
      · subst hj
        right
        rw [if_pos Std.compare_self, hunique u List.mem_cons_self]
      · rcases hsome with hmem | hfound
        · rcases List.mem_cons.mp hmem with heq | hmem
          · exact absurd (Prod.mk.inj heq).1.symm hj
          · exact .inl hmem
        · right
          rwa [if_neg fun h => hj (Std.compare_eq_iff_eq.mp h)]
  rw [Std.ExtTreeMap.ofList_eq_insertMany_empty]
  exact hinsert l ∅ hunique (.inl hmem)

/-- A map made of a list that does not contradict itself holds exactly what the list has. -/
theorem getElem?_ofList_eq_some_iff {α β : Type} [Ord α] [Std.TransOrd α] [Std.LawfulEqOrd α]
    [DecidableEq α] {l : List (α × β)} (hunique : ∀ k v u, (k, v) ∈ l → (k, u) ∈ l → u = v) {k : α}
    {v : β} : (Std.ExtTreeMap.ofList l)[k]? = some v ↔ (k, v) ∈ l := by
  constructor
  · intro h
    obtain ⟨u, hu⟩ : ∃ u, (k, u) ∈ l := by
      by_contra hnone
      have hmissing : (Std.ExtTreeMap.ofList l)[k]? = none :=
        Std.ExtTreeMap.getElem?_ofList_of_contains_eq_false (by simpa using hnone)
      rw [h] at hmissing
      contradiction
    have hfound := getElem?_ofList_of_forall_eq hu fun x hx => hunique k u x hu hx
    rw [h, Option.some.injEq] at hfound
    rwa [hfound]
  · intro h
    exact getElem?_ofList_of_forall_eq h fun u hu => hunique k v u h hu

namespace DFA

variable {D M : DFA} {f : State → State}

/-- An automaton has the states that a map gives, with the transitions that the map keeps. -/
structure Merges (D M : DFA) (f : State → State) : Prop where
  alphabet_eq : M.alphabet = D.alphabet
  initial_eq : M.initial = f D.initial
  mem_states : ∀ r, r ∈ M.states ↔ ∃ q ∈ D.states, f q = r
  mem_finals : ∀ q ∈ D.states, (f q ∈ M.finals ↔ q ∈ D.finals)
  successor : ∀ q ∈ D.states, ∀ a, M.successor? (f q) a = (D.successor? q a).map f

namespace Merges

/-- The run from the image of a state is the image of the run. -/
theorem runFrom (h : Merges D M f) (hD : D.WellFormed) {q : State} (hq : q ∈ D.states) (w : Word) :
    M.runFrom (f q) w = (D.runFrom q w).map f := by
  induction w generalizing q with
  | nil => rfl
  | cons a w ih =>
    rw [runFrom_cons, runFrom_cons, h.successor q hq]
    cases hr : D.successor? q a with
    | none => rfl
    | some r => exact ih (successor_mem hD hr)

/-- A word shows of the image of a state what it shows of the state. -/
theorem outcome (h : Merges D M f) (hD : D.WellFormed) {q : State} (hq : q ∈ D.states) (w : Word) :
    M.outcome (f q) w = D.outcome q w := by
  rw [DFA.outcome, DFA.outcome, h.runFrom hD hq]
  cases hr : D.runFrom q w with
  | none => rfl
  | some r =>
    have hfinal := h.mem_finals r (runFrom_mem hD hq hr)
    simp only [Option.map_some, Option.some.injEq]
    rw [Bool.eq_iff_iff, Automaton.isFinal_iff, Automaton.isFinal_iff, hfinal]

/-- The image accepts the same words. -/
theorem accepts_eq (h : Merges D M f) (hD : D.WellFormed) (w : Word) :
    M.accepts w = D.accepts w := by
  rw [accepts_eq_acceptsFrom, accepts_eq_acceptsFrom, acceptsFrom_eq_any_outcome,
    acceptsFrom_eq_any_outcome, h.initial_eq, h.outcome hD hD.initial_mem]

end Merges

/-- The name of the class that a state is in. -/
def className (P : Partition State) (q : State) : State := (classNames P).getD q q

section Classes

variable {R : State → State → Prop} {states : StateSet} {P : Partition State}

/-- No state is in two classes. -/
theorem Classifies.eq_of_mem (h : Classifies R states P) {c d : StateSet} {q : State}
    (hc : c ∈ P.classes) (hd : d ∈ P.classes) (hqc : q ∈ c) (hqd : q ∈ d) : c = d := by
  apply Std.ExtTreeSet.ext_mem
  intro r
  rw [h.mem_iff c hc q hqc, h.mem_iff d hd q hqd]

/-- A class is named after its members. -/
theorem Classifies.className_eq (h : Classifies R states P) {c : StateSet} {q : State}
    (hc : c ∈ P.classes) (hq : q ∈ c) : className P q = State.ofSet c := by
  have hfound : (classNames P)[q]? = some (State.ofSet c) := by
    apply getElem?_ofList_of_forall_eq
    · simp only [List.mem_flatMap, List.mem_map, Prod.mk.injEq]
      exact ⟨c, hc, q, Std.ExtTreeSet.mem_toList.mpr hq, rfl, rfl⟩
    · simp only [List.mem_flatMap, List.mem_map, Prod.mk.injEq]
      intro _ h
      obtain ⟨d, hd, r, hr, rfl, rfl⟩ := h
      rw [h.eq_of_mem hc hd hq (Std.ExtTreeSet.mem_toList.mp hr)]
  rw [className, Std.ExtTreeMap.getD_eq_getD_getElem?, hfound, Option.getD_some]

/-- States have the same name if they are in the same class. -/
theorem Classifies.className_eq_iff (h : Classifies R states P) {p q : State} (hp : p ∈ states)
    (hq : q ∈ states) : className P p = className P q ↔ R p q := by
  obtain ⟨c, hc, hpc⟩ := h.covers p hp
  obtain ⟨d, hd, hqd⟩ := h.covers q hq
  rw [h.className_eq hc hpc, h.className_eq hd hqd]
  constructor
  · intro hname
    obtain rfl := State.ofSet_inj (StateSet.ne_empty_iff.mpr ⟨p, hpc⟩)
      (StateSet.ne_empty_iff.mpr ⟨q, hqd⟩) hname
    exact ((h.mem_iff c hc p hpc q).mp hqd).2
  · intro hR
    rw [h.eq_of_mem hc hd ((h.mem_iff c hc p hpc q).mpr ⟨hq, hR⟩) hqd]

end Classes

/-- Indistinguishable states have the same successors, up to indistinguishable states. -/
theorem Indistinguishable.successor {p q : State} (h : D.Indistinguishable p q) (a : Symbol) :
    Option.Rel D.Indistinguishable (D.successor? p a) (D.successor? q a) := by
  have hread (w : Word) : ((D.successor? p a).bind fun r => D.outcome r w) =
      (D.successor? q a).bind fun r => D.outcome r w := by
    simpa using h (a :: w)
  cases hp : D.successor? p a with
  | none =>
    cases hq : D.successor? q a with
    | none => exact .none
    | some s => simpa [hp, hq] using hread []
  | some r =>
    cases hq : D.successor? q a with
    | none => simpa [hp, hq] using hread []
    | some s => exact .some fun w => by simpa [hp, hq] using hread w

section Quotient

variable {P : Partition State}

/-- The transitions between classes are the images of the transitions between states. -/
theorem mem_classTriples (hD : D.WellFormed) (hP : Classifies D.Indistinguishable D.states P)
    {m n : State} {a : Symbol} : (m, a, n) ∈ D.classTriples P ↔
      ∃ p ∈ D.states, ∃ q, D.successor? p a = some q ∧ className P p = m ∧ className P q = n := by
  rw [classTriples, List.mem_flatMap]
  constructor
  · intro h
    obtain ⟨c, hc, hmem⟩ := h
    cases hmin : c.min? with
    | none => simp [hmin] at hmem
    | some p =>
      have hp := Std.ExtTreeSet.min?_mem hmin
      simp only [hmin, List.mem_filterMap, Option.map_eq_some_iff, Prod.mk.injEq] at hmem
      obtain ⟨b, -, q, hq, rfl, rfl, rfl⟩ := hmem
      exact ⟨p, ((hP.mem_iff c hc p hp p).mp hp).1, q, hq, rfl, rfl⟩
  · intro h
    obtain ⟨p, hp, q, hq, rfl, rfl⟩ := h
    obtain ⟨c, hc, hpc⟩ := hP.covers p hp
    obtain ⟨r, hr⟩ : ∃ r, c.min? = some r := by
      rw [← Option.isSome_iff_exists, Std.ExtTreeSet.isSome_min?_iff_ne_empty]
      exact StateSet.ne_empty_iff.mpr ⟨p, hpc⟩
    have hrc := Std.ExtTreeSet.min?_mem hr
    obtain ⟨hrstate, hpr⟩ := (hP.mem_iff c hc p hpc r).mp hrc
    -- The least state of the class stands in for `p`.
    obtain ⟨s, hs, hqs⟩ : ∃ s, D.successor? r a = some s ∧ D.Indistinguishable q s := by
      have hrel := hpr.successor a
      rw [hq] at hrel
      cases hs : D.successor? r a with
      | none => simp [hs] at hrel
      | some s => exact ⟨s, rfl, by simpa [hs] using hrel⟩
    have ha : a ∈ D.alphabet := symbol_mem hD hq
    refine ⟨c, hc, ?_⟩
    simp only [hr, List.mem_filterMap, Option.map_eq_some_iff, Prod.mk.injEq]
    refine ⟨a, Std.ExtTreeSet.mem_toList.mpr ha, s, hs, ?_, rfl, ?_⟩
    · exact ((hP.className_eq_iff hp hrstate).mpr hpr).symm
    · exact ((hP.className_eq_iff (successor_mem hD hq) (successor_mem hD hs)).mpr hqs).symm

/-- A symbol leads from a class where it leads from its states. -/
theorem successor?_quotient (hD : D.WellFormed)
    (hP : Classifies D.Indistinguishable D.states P) {m n : State} {a : Symbol} :
    (D.quotient P).successor? m a = some n ↔
      ∃ p ∈ D.states, ∃ q, D.successor? p a = some q ∧ className P p = m ∧ className P q = n := by
  refine (DeterministicTable.successor?_ofTriples ?_).trans (mem_classTriples hD hP)
  intro m a n n' hn hn'
  obtain ⟨p, hp, q, hq, rfl, rfl⟩ := (mem_classTriples hD hP).mp hn
  obtain ⟨p', hp', q', hq', hname, rfl⟩ := (mem_classTriples hD hP).mp hn'
  have hrel := ((hP.className_eq_iff hp' hp).mp hname).successor a
  rw [hq, hq', Option.rel_some_some] at hrel
  exact (hP.className_eq_iff (successor_mem hD hq') (successor_mem hD hq)).mpr hrel

/-- Merging indistinguishable states is a map to classes that keeps transitions. -/
theorem merges_quotient (hD : D.WellFormed) (hP : Classifies D.Indistinguishable D.states P) :
    Merges D (D.quotient P) (className P) where
  alphabet_eq := rfl
  initial_eq := rfl
  mem_states r := by
    simp only [quotient, StateSet.mem_ofList, List.mem_map]
    constructor
    · intro h
      obtain ⟨c, hc, rfl⟩ := h
      obtain ⟨q, hq⟩ := hP.nonempty c hc
      exact ⟨q, ((hP.mem_iff c hc q hq q).mp hq).1, hP.className_eq hc hq⟩
    · intro h
      obtain ⟨q, hq, rfl⟩ := h
      obtain ⟨c, hc, hqc⟩ := hP.covers q hq
      exact ⟨c, hc, (hP.className_eq hc hqc).symm⟩
  mem_finals q hq := by
    simp only [quotient, StateSet.mem_image]
    constructor
    · intro h
      obtain ⟨r, hr, hname⟩ := h
      have hsame := (hP.className_eq_iff (hD.finals_subset r hr) hq).mp hname []
      simp only [outcome_nil, Option.some.injEq] at hsame
      rw [← Automaton.isFinal_iff, ← hsame]
      exact Automaton.isFinal_iff.mpr hr
    · exact fun hfinal => ⟨q, hfinal, rfl⟩
  successor q hq a := by
    cases hr : D.successor? q a with
    | some r => exact (successor?_quotient hD hP).mpr ⟨q, hq, r, hr, rfl, rfl⟩
    | none =>
      rw [Option.map_none]
      by_contra hsome
      obtain ⟨n, hn⟩ := Option.ne_none_iff_exists'.mp hsome
      obtain ⟨p, hp, s, hs, hname, -⟩ := (successor?_quotient hD hP).mp hn
      have hrel := ((hP.className_eq_iff hp hq).mp hname).successor a
      simp [hr, hs] at hrel

/-- The automaton of classes is well-formed. -/
theorem wellFormed_quotient (hD : D.WellFormed)
    (hP : Classifies D.Indistinguishable D.states P) : (D.quotient P).WellFormed := by
  have hmerges := merges_quotient hD hP
  refine wellFormed_of_successor? ?_ ?_ ?_
  · exact (hmerges.mem_states _).mpr ⟨D.initial, hD.initial_mem, rfl⟩
  · intro r hr
    obtain ⟨q, hq, rfl⟩ := StateSet.mem_image.mp hr
    exact (hmerges.mem_states _).mpr ⟨q, hD.finals_subset q hq, rfl⟩
  · intro m a n h
    obtain ⟨p, hp, q, hq, rfl, rfl⟩ := (successor?_quotient hD hP).mp h
    have ha : a ∈ D.alphabet := symbol_mem hD hq
    exact ⟨(hmerges.mem_states _).mpr ⟨p, hp, rfl⟩, ha,
      (hmerges.mem_states _).mpr ⟨q, successor_mem hD hq, rfl⟩⟩

end Quotient

end DFA

end RegularLanguages
