import Mathlib.Data.Finset.Card
import Mathlib.Data.List.Pairwise
import Mathlib.Data.List.Perm.Subperm
import RegularLanguages.Proofs.FiniteSets
import RegularLanguages.Partition

/-!
# When partitions count as equal

Two partitions are compared by the number of their classes, and by whether the classes of the first
are classes of the second. Counting shows that nothing is left over in the second if the first
repeats no class. For the classes of equivalence relations, then, equality is an equivalence
relation and means that the relations are the same. With repetitions it is still reflexive and
transitive, but a class that is only in the second partition may go unnoticed.
-/

namespace RegularLanguages.Partition

variable {α : Type} [Ord α] [Std.TransOrd α] [Std.LawfulEqOrd α] {p q r : Partition α}

/-- What is compared: the number of classes, and the classes of the first partition. -/
theorem beq_iff : (p == q) = true ↔ p.size = q.size ∧ p.classes ⊆ q.classes := by
  simp [BEq.beq, List.subset_def]

/-- Every partition equals itself. -/
theorem beq_self (p : Partition α) : (p == p) = true := beq_iff.mpr ⟨rfl, List.Subset.refl _⟩

/-- What equals an equal partition is equal. -/
theorem beq_trans (hpq : (p == q) = true) (hqr : (q == r) = true) : (p == r) = true := by
  obtain ⟨hsize, hsub⟩ := beq_iff.mp hpq
  obtain ⟨hsize', hsub'⟩ := beq_iff.mp hqr
  exact beq_iff.mpr ⟨hsize.trans hsize', List.Subset.trans hsub hsub'⟩

/-- Equality holds the other way round exactly if no class of the second partition is left over,
and this shows in the number of different classes. -/
theorem beq_comm_iff (h : (p == q) = true) :
    (q == p) = true ↔ p.classes.toFinset.card = q.classes.toFinset.card := by
  obtain ⟨hsize, hsub⟩ := beq_iff.mp h
  rw [beq_iff, and_iff_right hsize.symm]
  constructor
  · intro hback
    have hsame : p.classes.toFinset = q.classes.toFinset :=
      List.toFinset.ext fun c => ⟨fun hc => hsub hc, fun hc => hback hc⟩
    rw [hsame]
  · intro hcard
    have hfinset : p.classes.toFinset ⊆ q.classes.toFinset := by
      intro c hc
      exact List.mem_toFinset.mpr (hsub (List.mem_toFinset.mp hc))
    have hsame := Finset.eq_of_subset_of_card_le hfinset hcard.ge
    intro c hc
    rwa [← List.mem_toFinset, hsame, List.mem_toFinset]

/-- If no class is repeated, equal partitions have the same classes in some order. -/
theorem perm_of_beq (hp : p.classes.Nodup) (h : (p == q) = true) : p.classes.Perm q.classes := by
  obtain ⟨hsize, hsub⟩ := beq_iff.mp h
  exact (hp.subperm hsub).perm_of_length_le hsize.ge

/-- Equality holds the other way round if the first partition repeats no class. -/
theorem beq_symm (hp : p.classes.Nodup) (h : (p == q) = true) : (q == p) = true := by
  have hperm := perm_of_beq hp h
  exact beq_iff.mpr ⟨hperm.length_eq.symm, hperm.symm.subset⟩

/-- Two elements lie in a common class. -/
def Relates (p : Partition α) (x y : α) : Prop := ∃ c ∈ p.classes, x ∈ c ∧ y ∈ c

/-- The classes are those of an equivalence relation on some elements: none is empty, and no element
lies in two of them. -/
structure Proper (p : Partition α) : Prop where
  nonempty : ∀ c ∈ p.classes, c ≠ ∅
  disjoint : p.classes.Pairwise fun c d => ∀ x ∈ c, x ∉ d

instance : Decidable p.Proper :=
  decidable_of_iff ((∀ c ∈ p.classes, c ≠ ∅) ∧
      p.classes.Pairwise fun c d => ∀ x ∈ c.toList, x ∉ d)
    ⟨fun h => ⟨h.1, by simpa using h.2⟩, fun h => ⟨h.1, by simpa using h.2⟩⟩

namespace Proper

variable {c d : Std.ExtTreeSet α} {x : α}

/-- A class has a member. -/
theorem exists_mem (hp : p.Proper) (hc : c ∈ p.classes) : ∃ x, x ∈ c := by
  by_contra hnone
  apply hp.nonempty c hc
  apply Std.ExtTreeSet.ext_mem
  simpa using hnone

/-- No class is repeated. -/
theorem nodup (hp : p.Proper) : p.classes.Nodup := by
  refine hp.disjoint.imp_of_mem ?_
  intro c d hc _ hapart hsame
  obtain ⟨x, hx⟩ := hp.exists_mem hc
  exact hapart x hx (hsame ▸ hx)

/-- Classes with a common member are the same. -/
theorem eq_of_mem (hp : p.Proper) (hc : c ∈ p.classes) (hd : d ∈ p.classes) (hxc : x ∈ c)
    (hxd : x ∈ d) : c = d := by
  have : Std.Symm fun c d : Std.ExtTreeSet α => ∀ x ∈ c, x ∉ d :=
    ⟨fun _ _ hapart y hy hy' => hapart y hy' hy⟩
  by_contra hne
  exact hp.disjoint.forall hc hd hne x hxc hxd

/-- The class of an element has the elements that are related to it. -/
theorem mem_iff_relates (hp : p.Proper) (hc : c ∈ p.classes) (hx : x ∈ c) (y : α) :
    y ∈ c ↔ p.Relates x y := by
  constructor
  · intro hy
    exact ⟨c, hc, hx, hy⟩
  · intro hrelated
    obtain ⟨d, hd, hxd, hyd⟩ := hrelated
    rwa [hp.eq_of_mem hc hd hx hxd]

/-- Partitions for the same relation have the same classes. -/
theorem subset_of_relates (hp : p.Proper) (hq : q.Proper)
    (hsame : ∀ x y, p.Relates x y ↔ q.Relates x y) : p.classes ⊆ q.classes := by
  intro c hc
  obtain ⟨x, hx⟩ := hp.exists_mem hc
  obtain ⟨d, hd, hxd, -⟩ := (hsame x x).mp ⟨c, hc, hx, hx⟩
  have hcd : c = d := by
    apply Std.ExtTreeSet.ext_mem
    intro y
    rw [hp.mem_iff_relates hc hx, hsame, hq.mem_iff_relates hd hxd]
  exact hcd ▸ hd

/-- Partitions into the classes of equivalence relations are equal exactly if the relations are. -/
theorem beq_iff_relates (hp : p.Proper) (hq : q.Proper) :
    (p == q) = true ↔ ∀ x y, p.Relates x y ↔ q.Relates x y := by
  constructor
  · intro h x y
    have hperm := perm_of_beq hp.nodup h
    simp only [Relates, hperm.mem_iff]
  · intro hsame
    have hsub := hp.subset_of_relates hq hsame
    have hsub' := hq.subset_of_relates hp fun x y => (hsame x y).symm
    refine beq_iff.mpr ⟨?_, hsub⟩
    exact ((hp.nodup.subperm hsub).antisymm (hq.nodup.subperm hsub')).length_eq

end Proper

/-- Equality is reflexive and transitive on all partitions. It holds the other way round exactly if
the partitions have as many different classes, so always if the first one repeats no class. For the
classes of equivalence relations, equality is that of the relations. -/
theorem equality_is_symmetric_without_repetitions (p q r : Partition α) :
    (p == p) = true ∧
    ((p == q) = true → (q == r) = true → (p == r) = true) ∧
    ((p == q) = true →
      ((q == p) = true ↔ p.classes.toFinset.card = q.classes.toFinset.card)) ∧
    (p.classes.Nodup → (p == q) = true → (q == p) = true) ∧
    (p.Proper → q.Proper → ((p == q) = true ↔ ∀ x y, p.Relates x y ↔ q.Relates x y)) :=
  ⟨beq_self p, beq_trans, beq_comm_iff, beq_symm, Proper.beq_iff_relates⟩

/-- Two classes in another order: equality holds in both directions, and both partitions relate the
same elements. -/
theorem equality_of_two_orders :
    let p : Partition String := .ofGroups [["a", "b"], ["c"]]
    let q : Partition String := .ofGroups [["c"], ["b", "a"], []]
    p.classes.Nodup ∧ (p == q) = true ∧ (q == p) = true ∧ p.Proper ∧ q.Proper ∧
      ∀ x y, p.Relates x y ↔ q.Relates x y := by
  intro p q
  obtain ⟨-, -, -, hsymm, hrelations⟩ := equality_is_symmetric_without_repetitions p q p
  have hnodup : p.classes.Nodup := by decide +kernel
  have heq : (p == q) = true := by decide +kernel
  have hp : p.Proper := by decide +kernel
  have hq : q.Proper := by decide +kernel
  exact ⟨hnodup, heq, hsymm hnodup heq, hp, hq, (hrelations hp hq).mp heq⟩

/-- Equality is not symmetric: a partition with one class twice equals one that has another class in
the place of the second, but not the other way round. -/
theorem not_forall_beq_symm :
    ¬ ∀ p q : Partition String, (p == q) = true → (q == p) = true := by
  intro h
  have hback := h (.ofGroups [["x"], ["x"]]) (.ofGroups [["x"], ["y"]]) (by decide +kernel)
  revert hback
  decide +kernel

end RegularLanguages.Partition
