import Mathlib.Data.Finset.Card
import RegularLanguages.Automaton.State

/-!
# Finite sets of states and symbols

Membership in sets that are changed or filtered, and the number of members as the cardinality of
a finite set, where counting arguments take place.
-/

namespace RegularLanguages.FiniteSet

variable {α : Type} [Ord α] [Std.TransOrd α]

/-- A failed test is no member. -/
@[simp] theorem contains_eq_false {s : Std.ExtTreeSet α} {a : α} :
    s.contains a = false ↔ a ∉ s := by
  rw [← Std.ExtTreeSet.contains_iff_mem, Bool.not_eq_true]

/-- The array of the members has them in the order of their list. -/
theorem toArray_eq (s : Std.ExtTreeSet α) : s.toArray = s.toList.toArray := by
  obtain ⟨⟨⟨m⟩⟩⟩ := s
  induction m using Quotient.ind with
  | _ m => exact (Std.DTreeMap.toArray_keys (t := m)).symm

/-- A new member is one member more. -/
theorem size_insert {s : Std.ExtTreeSet α} {a : α} (h : a ∉ s) : (s.insert a).size = s.size + 1 :=
  Std.ExtTreeSet.size_insert.trans (if_neg (by simpa using h))

/-- A strictly ascending list has no repetitions. -/
theorem nodup_of_ordered {l : List α} (h : l.Pairwise fun a b => compare a b = .lt) : l.Nodup :=
  h.imp fun hlt heq => by simp [heq] at hlt

/-- No member is listed twice. -/
theorem nodup_toList (s : Std.ExtTreeSet α) : s.toList.Nodup := nodup_of_ordered s.ordered_toList

/-- Strictly ascending lists with the same members are the same. -/
theorem eq_of_ordered {l l' : List α} (h : l.Pairwise fun a b => compare a b = .lt)
    (h' : l'.Pairwise fun a b => compare a b = .lt) (hmem : ∀ a, a ∈ l ↔ a ∈ l') : l = l' := by
  have hperm : l.Perm l' :=
    (List.perm_ext_iff_of_nodup (nodup_of_ordered h) (nodup_of_ordered h')).mpr hmem
  refine hperm.eq_of_pairwise ?_ h h'
  intro a b _ _ hab hba
  have hswap : compare b a = (compare a b).swap := Std.OrientedCmp.eq_swap
  rw [hswap, hab] at hba
  contradiction

variable [Std.LawfulEqOrd α]

/-- Inserting adds one member. -/
@[simp] theorem mem_insert {s : Std.ExtTreeSet α} {a b : α} : b ∈ s.insert a ↔ b = a ∨ b ∈ s := by
  rw [Std.ExtTreeSet.mem_insert, Std.compare_eq_iff_eq, eq_comm]

/-- Filtering keeps the members with the property. -/
@[simp] theorem mem_filter {s : Std.ExtTreeSet α} {f : α → Bool} {a : α} :
    a ∈ s.filter f ↔ a ∈ s ∧ f a = true := by
  rw [Std.ExtTreeSet.mem_filter]
  constructor
  · intro h
    obtain ⟨h, hf⟩ := h
    exact ⟨h, by rwa [Std.ExtTreeSet.get_eq h] at hf⟩
  · intro h
    obtain ⟨h, hf⟩ := h
    exact ⟨h, by rwa [Std.ExtTreeSet.get_eq h]⟩

/-- A strictly ascending list of the members is the list of the members. -/
theorem eq_toList_of_ordered {s : Std.ExtTreeSet α} {l : List α}
    (hordered : l.Pairwise fun a b => compare a b = .lt) (hmem : ∀ a, a ∈ l ↔ a ∈ s) :
    l = s.toList :=
  eq_of_ordered hordered s.ordered_toList (by simpa using hmem)

/-- A list without repetitions has as many members as its set. -/
theorem size_ofList {l : List α} (h : l.Nodup) : (Std.ExtTreeSet.ofList l).size = l.length :=
  Std.ExtTreeSet.size_ofList (h.imp fun hne heq => hne (Std.compare_eq_iff_eq.mp heq))

variable [DecidableEq α]

/-- The members make the set. -/
theorem ofList_toList (s : Std.ExtTreeSet α) : Std.ExtTreeSet.ofList s.toList = s := by
  apply Std.ExtTreeSet.ext_mem
  simp [Std.ExtTreeSet.mem_ofList]

/-- The same set in the form in which members are counted. -/
def toFinset (s : Std.ExtTreeSet α) : Finset α := s.toList.toFinset

/-- A set and the finite set it is counted by have the same members. -/
@[simp] theorem mem_toFinset {s : Std.ExtTreeSet α} {a : α} : a ∈ toFinset s ↔ a ∈ s := by
  simp [toFinset]

omit [Std.LawfulEqOrd α] in
/-- A set and the finite set it is counted by have as many members. -/
@[simp] theorem card_toFinset (s : Std.ExtTreeSet α) : (toFinset s).card = s.size := by
  rw [toFinset, List.toFinset_card_of_nodup (nodup_toList s), Std.ExtTreeSet.length_toList]

/-- A set whose members all belong to another set of the same size is that set. -/
theorem eq_of_subset_of_size_le {s t : Std.ExtTreeSet α} (hsub : ∀ a ∈ s, a ∈ t)
    (hsize : t.size ≤ s.size) : s = t := by
  have heq : toFinset s = toFinset t := by
    apply Finset.eq_of_subset_of_card_le
    · intro a ha
      exact mem_toFinset.mpr (hsub a (mem_toFinset.mp ha))
    · simpa using hsize
  apply Std.ExtTreeSet.ext_mem
  intro a
  rw [← mem_toFinset, heq, mem_toFinset]

/-- A map that never takes two members of a set to one member of another shows which is larger. -/
theorem size_le_of_injOn {β : Type} [Ord β] [Std.TransOrd β] [Std.LawfulEqOrd β] [DecidableEq β]
    {s : Std.ExtTreeSet α} {t : Std.ExtTreeSet β} (f : α → β) (hmaps : ∀ a ∈ s, f a ∈ t)
    (hinj : ∀ a ∈ s, ∀ b ∈ s, f a = f b → a = b) : s.size ≤ t.size := by
  rw [← card_toFinset s, ← card_toFinset t]
  apply Finset.card_le_card_of_injOn f
  · intro a ha
    exact mem_toFinset.mpr (hmaps a (by simpa using ha))
  · intro a ha b hb
    exact hinj a (by simpa using ha) b (by simpa using hb)

/-- Sets without a common member have as many members as both together. -/
theorem size_union {s t : Std.ExtTreeSet α} (h : ∀ a ∈ s, a ∉ t) :
    (s ∪ t).size = s.size + t.size := by
  have hdisjoint : Disjoint (toFinset s) (toFinset t) :=
    Finset.disjoint_left.mpr fun a hs ht => h a (mem_toFinset.mp hs) (mem_toFinset.mp ht)
  have hunion : toFinset (s ∪ t) = toFinset s ∪ toFinset t := by
    ext a
    simp [Std.ExtTreeSet.mem_union_iff]
  rw [← card_toFinset, hunion, Finset.card_union_of_disjoint hdisjoint, card_toFinset,
    card_toFinset]

end RegularLanguages.FiniteSet

namespace RegularLanguages.StateSet

/-- A set of states is not empty exactly if it has a state. -/
theorem ne_empty_iff {s : StateSet} : s ≠ ∅ ↔ ∃ q, q ∈ s := by
  rw [← not_iff_not, not_not, not_exists]
  constructor
  · intro h q hq
    subst h
    simp at hq
  · intro h
    apply Std.ExtTreeSet.ext_mem
    simpa using h

/-- The set of a single state is not empty. -/
theorem single_ne_empty (q : State) : single q ≠ ∅ := ne_empty_iff.mpr ⟨q, mem_single.mpr rfl⟩

end RegularLanguages.StateSet
