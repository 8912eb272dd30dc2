import Mathlib.Data.List.Nodup
import Mathlib.Data.List.Perm.Basic
import RegularLanguages.Automaton.Minimal

/-!
# Rounds of refinement

The classes of a partition are lists of numbers that hold every number once. A round splits each
class by a key, so two numbers stay together if they were together and have the same key. A round
never loses a class; one that adds none has split nothing, and then no later round does either.
-/

namespace RegularLanguages.SuccessorRows

section Groups

variable {α κ : Type}

/-- Two items are in a common class. -/
def Together (classes : List (List α)) (x y : α) : Prop := ∃ c ∈ classes, x ∈ c ∧ y ∈ c

/-- The classes hold the items, each as often as it occurs, and no class is empty. -/
structure Divides (classes : List (List α)) (items : List α) : Prop where
  perm : classes.flatten.Perm items
  nonempty : ∀ c ∈ classes, c ≠ []

/-- Being in a common class is symmetric. -/
theorem Together.symm {classes : List (List α)} {x y : α} (h : Together classes x y) :
    Together classes y x := by
  obtain ⟨c, hc, hx, hy⟩ := h
  exact ⟨c, hc, hy, hx⟩

/-- Items that are together are among the items. -/
theorem Divides.mem_of_together {classes : List (List α)} {items : List α}
    (h : Divides classes items) {x y : α} (htogether : Together classes x y) : x ∈ items := by
  obtain ⟨c, hc, hx, -⟩ := htogether
  exact h.perm.mem_iff.mp (List.mem_flatten.mpr ⟨c, hc, hx⟩)

/-- Every item is together with itself. -/
theorem Divides.together_self {classes : List (List α)} {items : List α}
    (h : Divides classes items) {x : α} (hx : x ∈ items) : Together classes x x := by
  obtain ⟨c, hc, hmem⟩ := List.mem_flatten.mp (h.perm.mem_iff.mpr hx)
  exact ⟨c, hc, hmem, hmem⟩

/-- There are no more classes than items. -/
theorem Divides.length_le {classes : List (List α)} {items : List α}
    (h : Divides classes items) : classes.length ≤ items.length := by
  have hflat : classes.length ≤ classes.flatten.length := by
    have hnonempty := h.nonempty
    clear h
    induction classes with
    | nil => simp
    | cons c classes ih =>
      have hc := List.length_pos_iff.mpr (hnonempty c List.mem_cons_self)
      have hrest := ih fun d hd => hnonempty d (List.mem_cons_of_mem c hd)
      rw [List.flatten_cons, List.length_append, List.length_cons]
      omega
  exact h.perm.length_eq ▸ hflat

/-- The keys of groups differ, and each group is made of items with its key. -/
structure Keyed (key : α → κ) (groups : List (κ × List α)) : Prop where
  nodup : (groups.map (·.1)).Nodup
  nonempty : ∀ g ∈ groups, g.2 ≠ []
  key_eq : ∀ g ∈ groups, ∀ x ∈ g.2, key x = g.1

variable [BEq κ] [LawfulBEq κ]

/-- The keys after adding an item are those before and the key of the item. -/
theorem mem_keys_addToGroup {k l : κ} {x : α} {groups : List (κ × List α)} :
    l ∈ (addToGroup k x groups).map (·.1) ↔ l = k ∨ l ∈ groups.map (·.1) := by
  induction groups with
  | nil => simp [addToGroup]
  | cons g groups ih =>
    obtain ⟨k', group⟩ := g
    by_cases hk : k' = k
    · simp [addToGroup, hk]
    · simp only [addToGroup, beq_iff_eq, hk, if_false, List.map_cons, List.mem_cons, ih]
      tauto

/-- Adding an item to the group of its key keeps the groups in order. -/
theorem Keyed.addToGroup {key : α → κ} {groups : List (κ × List α)} (h : Keyed key groups)
    (x : α) : Keyed key (addToGroup (key x) x groups) := by
  induction groups with
  | nil => exact ⟨by simp [SuccessorRows.addToGroup], by simp [SuccessorRows.addToGroup],
      by simp [SuccessorRows.addToGroup]⟩
  | cons g groups ih =>
    obtain ⟨k, group⟩ := g
    obtain ⟨hnot, hnodup⟩ := List.nodup_cons.mp h.nodup
    have hhead := h.key_eq (k, group) List.mem_cons_self
    have htail : Keyed key groups := ⟨hnodup, fun g hg => h.nonempty g (List.mem_cons_of_mem _ hg),
      fun g hg => h.key_eq g (List.mem_cons_of_mem _ hg)⟩
    by_cases hk : k = key x
    · rw [SuccessorRows.addToGroup, if_pos (beq_iff_eq.mpr hk)]
      refine ⟨h.nodup, ?_, ?_⟩
      · intro g h
        rcases h with _ | ⟨_, hg⟩
        · exact List.cons_ne_nil _ _
        · exact htail.nonempty g hg
      · intro g h y hy
        rcases h with _ | ⟨_, hg⟩
        · rcases List.mem_cons.mp hy with rfl | hy
          · exact hk.symm
          · exact hhead y hy
        · exact htail.key_eq g hg y hy
    · rw [SuccessorRows.addToGroup, if_neg (by simpa using hk)]
      have hrest := ih htail
      refine ⟨List.nodup_cons.mpr ⟨?_, hrest.nodup⟩, ?_, ?_⟩
      · rw [mem_keys_addToGroup]
        intro h
        rcases h with h | h
        · exact hk h
        · exact hnot h
      · intro g h
        rcases h with _ | ⟨_, hg⟩
        · exact h.nonempty _ List.mem_cons_self
        · exact hrest.nonempty g hg
      · intro g h
        rcases h with _ | ⟨_, hg⟩
        · exact hhead
        · exact hrest.key_eq g hg

omit [LawfulBEq κ] in
/-- Adding an item to a group adds it to the items of all groups. -/
theorem perm_addToGroup (k : κ) (x : α) (groups : List (κ × List α)) :
    ((addToGroup k x groups).map (·.2)).flatten.Perm (x :: (groups.map (·.2)).flatten) := by
  induction groups with
  | nil => simp [addToGroup]
  | cons g groups ih =>
    obtain ⟨k', group⟩ := g
    rw [addToGroup]
    split
    · simp
    · simp only [List.map_cons, List.flatten_cons]
      exact (ih.append_left group).trans List.perm_middle

/-- The groups that a list of items is put into, with their keys. -/
def keyedGroups (key : α → κ) (items : List α) : List (κ × List α) :=
  items.foldr (fun item groups => addToGroup (key item) item groups) []

/-- The groups that items are put into have different keys, and each has items with its key. -/
theorem keyed_keyedGroups (key : α → κ) (items : List α) : Keyed key (keyedGroups key items) := by
  induction items with
  | nil => exact ⟨List.nodup_nil, by simp [keyedGroups], by simp [keyedGroups]⟩
  | cons x items ih => exact ih.addToGroup x

omit [LawfulBEq κ] in
/-- The groups that items are put into have all items once. -/
theorem perm_keyedGroups (key : α → κ) (items : List α) :
    ((keyedGroups key items).map (·.2)).flatten.Perm items := by
  induction items with
  | nil => simp [keyedGroups]
  | cons x items ih => exact (perm_addToGroup (key x) x _).trans (ih.cons x)

omit [LawfulBEq κ] in
/-- A single item makes a single group, however it comes about. -/
theorem groupsBy_eq (key : α → κ) (items : List α) :
    groupsBy key items = (keyedGroups key items).map (·.2) := by
  unfold groupsBy
  split <;> rfl

/-- Items are divided into their groups. -/
theorem divides_groupsBy (key : α → κ) (items : List α) :
    Divides (groupsBy key items) items := by
  rw [groupsBy_eq]
  refine ⟨perm_keyedGroups key items, ?_⟩
  intro c hc
  obtain ⟨g, hg, rfl⟩ := List.mem_map.mp hc
  exact (keyed_keyedGroups key items).nonempty g hg

/-- Items are grouped together if they have the same key. -/
theorem together_groupsBy {key : α → κ} {items : List α} {x y : α} :
    Together (groupsBy key items) x y ↔ x ∈ items ∧ y ∈ items ∧ key x = key y := by
  have hkeyed := keyed_keyedGroups key items
  have hgroup {z : α} (hz : z ∈ items) : ∃ g ∈ keyedGroups key items, z ∈ g.2 := by
    obtain ⟨c, hc, hmem⟩ := List.mem_flatten.mp ((perm_keyedGroups key items).mem_iff.mpr hz)
    obtain ⟨g, hg, rfl⟩ := List.mem_map.mp hc
    exact ⟨g, hg, hmem⟩
  constructor
  · intro h
    have hdivides := divides_groupsBy key items
    refine ⟨hdivides.mem_of_together h, hdivides.mem_of_together h.symm, ?_⟩
    obtain ⟨c, hc, hx, hy⟩ := h
    rw [groupsBy_eq] at hc
    obtain ⟨g, hg, rfl⟩ := List.mem_map.mp hc
    rw [hkeyed.key_eq g hg x hx, hkeyed.key_eq g hg y hy]
  · intro h
    obtain ⟨hx, hy, hkey⟩ := h
    obtain ⟨g, hg, hxg⟩ := hgroup hx
    obtain ⟨h, hh, hyh⟩ := hgroup hy
    have hsame : g = h := List.inj_on_of_nodup_map hkeyed.nodup hg hh (by
      rw [← hkeyed.key_eq g hg x hxg, hkey, hkeyed.key_eq h hh y hyh])
    rw [groupsBy_eq]
    exact ⟨g.2, List.mem_map_of_mem hg, hxg, hsame ▸ hyh⟩

/-- Splitting classes by a key divides the same items. -/
theorem Divides.split {classes : List (List α)} {items : List α} (h : Divides classes items)
    (key : α → κ) : Divides (classes.flatMap (groupsBy key)) items := by
  refine ⟨?_, ?_⟩
  · refine List.Perm.trans ?_ h.perm
    clear h
    induction classes with
    | nil => exact .refl _
    | cons c classes ih =>
      rw [List.flatMap_cons, List.flatten_append, List.flatten_cons]
      exact (divides_groupsBy key c).perm.append ih
  · intro g hg
    obtain ⟨c, -, hgroup⟩ := List.mem_flatMap.mp hg
    exact (divides_groupsBy key c).nonempty g hgroup

/-- Splitting classes by a key keeps those together that have the same key. -/
theorem together_split {classes : List (List α)} {key : α → κ} {x y : α} :
    Together (classes.flatMap (groupsBy key)) x y ↔ Together classes x y ∧ key x = key y := by
  constructor
  · intro h
    obtain ⟨g, hg, hx, hy⟩ := h
    obtain ⟨c, hc, hgroup⟩ := List.mem_flatMap.mp hg
    obtain ⟨hxc, hyc, hkey⟩ := together_groupsBy.mp ⟨g, hgroup, hx, hy⟩
    exact ⟨⟨c, hc, hxc, hyc⟩, hkey⟩
  · intro h
    obtain ⟨⟨c, hc, hx, hy⟩, hkey⟩ := h
    obtain ⟨g, hg, hxg, hyg⟩ := together_groupsBy.mpr ⟨hx, hy, hkey⟩
    exact ⟨g, List.mem_flatMap.mpr ⟨c, hc, hg⟩, hxg, hyg⟩

/-- A class that is not empty is split into one group at least. -/
theorem length_groupsBy_pos (key : α → κ) {c : List α} (hc : c ≠ []) :
    0 < (groupsBy key c).length := by
  rw [List.length_pos_iff]
  intro hnone
  have hperm := (divides_groupsBy key c).perm
  rw [hnone] at hperm
  exact hc hperm.nil_eq.symm

/-- Splitting does not lose classes. -/
theorem length_le_split {classes : List (List α)} (key : α → κ) (h : ∀ c ∈ classes, c ≠ []) :
    classes.length ≤ (classes.flatMap (groupsBy key)).length := by
  induction classes with
  | nil => exact Nat.le_refl _
  | cons c classes ih =>
    have hc := length_groupsBy_pos key (h c List.mem_cons_self)
    have hrest := ih fun d hd => h d (List.mem_cons_of_mem c hd)
    rw [List.flatMap_cons, List.length_append, List.length_cons]
    omega

/-- If splitting adds no class, then all that were together have the same key. -/
theorem key_eq_of_length_split {classes : List (List α)} {key : α → κ}
    (h : ∀ c ∈ classes, c ≠ []) (hlength : (classes.flatMap (groupsBy key)).length = classes.length)
    {x y : α} (htogether : Together classes x y) : key x = key y := by
  induction classes with
  | nil =>
    obtain ⟨c, hc, -⟩ := htogether
    contradiction
  | cons c classes ih =>
    have hc := length_groupsBy_pos key (h c List.mem_cons_self)
    have htail : ∀ d ∈ classes, d ≠ [] := fun d hd => h d (List.mem_cons_of_mem c hd)
    have hrest := length_le_split key htail
    rw [List.flatMap_cons, List.length_append, List.length_cons] at hlength
    obtain ⟨d, hd, hx, hy⟩ := htogether
    rcases List.mem_cons.mp hd with rfl | hd
    · obtain ⟨g, hg⟩ := List.length_eq_one_iff.mp (show (groupsBy key d).length = 1 by omega)
      have hperm : g.Perm d := by simpa [hg] using (divides_groupsBy key d).perm
      have htogether : Together (groupsBy key d) x y :=
        ⟨g, by rw [hg]; exact List.mem_cons_self, hperm.mem_iff.mpr hx, hperm.mem_iff.mpr hy⟩
      exact (together_groupsBy.mp htogether).2.2
    · exact ih htail (by omega) ⟨d, hd, hx, hy⟩

end Groups

section Positions

/-- Writing one value at several places. -/
theorem getElem?_foldl_set (c : List Nat) (found : Array Nat) (n i : Nat) :
    (c.foldl (fun found i => found.setIfInBounds i n) found)[i]? =
      if i ∈ c ∧ i < found.size then some n else found[i]? := by
  induction c generalizing found with
  | nil => simp
  | cons j c ih =>
    rw [List.foldl_cons, ih, Array.size_setIfInBounds, Array.getElem?_setIfInBounds]
    grind

/-- Writing at several places of an array does not change its size. -/
theorem size_foldl_set (c : List Nat) (found : Array Nat) (n : Nat) :
    (c.foldl (fun found i => found.setIfInBounds i n) found).size = found.size := by
  induction c generalizing found with
  | nil => rfl
  | cons j c ih => rw [List.foldl_cons, ih, Array.size_setIfInBounds]

/-- A number keeps its value where no class holds it. -/
theorem getElem?_foldl_zipIdx_of_notMem (classes : List (List Nat)) (m : Nat) (found : Array Nat)
    {i : Nat} (hi : i ∉ classes.flatten) :
    ((classes.zipIdx m).foldl (fun found (c, n) =>
      c.foldl (fun found i => found.setIfInBounds i n) found) found)[i]? = found[i]? := by
  induction classes generalizing m found with
  | nil => rfl
  | cons c classes ih =>
    rw [List.flatten_cons, List.mem_append, not_or] at hi
    rw [List.zipIdx_cons, List.foldl_cons, ih _ _ hi.2, getElem?_foldl_set, if_neg]
    exact fun h => hi.1 h.1

/-- A number gets the position of the only class that holds it. -/
theorem getElem?_foldl_zipIdx (classes : List (List Nat)) (m : Nat) (found : Array Nat)
    (hnodup : classes.flatten.Nodup) {i k : Nat} {c : List Nat} (hc : classes[k]? = some c)
    (hi : i ∈ c) (hsize : i < found.size) :
    ((classes.zipIdx m).foldl (fun found (c, n) =>
      c.foldl (fun found i => found.setIfInBounds i n) found) found)[i]? = some (m + k) := by
  induction classes generalizing m found k with
  | nil => simp at hc
  | cons d classes ih =>
    rw [List.flatten_cons, List.nodup_append] at hnodup
    rw [List.zipIdx_cons, List.foldl_cons]
    cases k with
    | zero =>
      obtain rfl := Option.some.inj hc
      have hnot : i ∉ classes.flatten := fun h => hnodup.2.2 i hi i h rfl
      rw [getElem?_foldl_zipIdx_of_notMem classes _ _ hnot, getElem?_foldl_set,
        if_pos ⟨hi, hsize⟩, Nat.add_zero]
    | succ k =>
      rw [ih (m + 1) _ hnodup.2.1 hc (by rwa [size_foldl_set])]
      congr 1
      omega

variable {size : Nat} {classes : List (List Nat)}

/-- Each number knows the position of its class. -/
theorem getElem?_positions (h : Divides classes (List.range size)) {i k : Nat} {c : List Nat}
    (hc : classes[k]? = some c) (hi : i ∈ c) : (positions size classes)[i]? = some k := by
  have hmem : i ∈ List.range size :=
    h.perm.mem_iff.mp (List.mem_flatten.mpr ⟨c, List.mem_of_getElem? hc, hi⟩)
  have hfound := getElem?_foldl_zipIdx classes 0 (Array.replicate size 0)
    (h.perm.nodup_iff.mpr List.nodup_range) hc hi (by simpa using hmem)
  simpa [positions] using hfound

/-- Numbers are together if they know the same position. -/
theorem positions_eq_iff (h : Divides classes (List.range size)) {i j : Nat} (hi : i < size)
    (hj : j < size) :
    (positions size classes)[i]? = (positions size classes)[j]? ↔ Together classes i j := by
  have hclass {i : Nat} (hi : i < size) :
      ∃ (k : Nat) (c : List Nat), classes[k]? = some c ∧ i ∈ c := by
    obtain ⟨c, hc, hmem⟩ :=
      List.mem_flatten.mp (h.perm.mem_iff.mpr (List.mem_range.mpr hi))
    obtain ⟨k, hk⟩ := List.mem_iff_getElem?.mp hc
    exact ⟨k, c, hk, hmem⟩
  constructor
  · intro heq
    obtain ⟨k, c, hc, hic⟩ := hclass hi
    obtain ⟨l, d, hd, hjd⟩ := hclass hj
    rw [getElem?_positions h hc hic, getElem?_positions h hd hjd, Option.some.injEq] at heq
    subst heq
    obtain rfl := Option.some.inj (hc.symm.trans hd)
    exact ⟨c, List.mem_of_getElem? hc, hic, hjd⟩
  · intro h
    obtain ⟨c, hc, hic, hjc⟩ := h
    obtain ⟨k, hk⟩ := List.mem_iff_getElem?.mp hc
    rw [getElem?_positions h hk hic, getElem?_positions h hk hjc]

/-- No number is in two classes. -/
theorem Divides.eq_of_mem (h : Divides classes (List.range size)) {i : Nat} {c d : List Nat}
    (hc : c ∈ classes) (hd : d ∈ classes) (hic : i ∈ c) (hid : i ∈ d) : c = d := by
  obtain ⟨k, hk⟩ := List.mem_iff_getElem?.mp hc
  obtain ⟨l, hl⟩ := List.mem_iff_getElem?.mp hd
  obtain rfl : k = l := Option.some.inj
    ((getElem?_positions h hk hic).symm.trans (getElem?_positions h hl hid))
  exact Option.some.inj (hk.symm.trans hl)

end Positions

section Rounds

variable {rows : SuccessorRows} {classes : List (List Nat)}

/-- A round divides the same numbers. -/
theorem divides_refine (h : Divides classes (List.range rows.size)) :
    Divides (rows.refine classes) (List.range rows.size) := h.split _

/-- A round keeps those together that were together and have the same key. -/
theorem together_refine {i j : Nat} :
    Together (rows.refine classes) i j ↔ Together classes i j ∧
      rows.signature (positions rows.size classes) i =
        rows.signature (positions rows.size classes) j := together_split

/-- A round that adds no class separates nothing. -/
theorem together_refine_of_length_eq (h : Divides classes (List.range rows.size))
    (hlength : (rows.refine classes).length = classes.length) {i j : Nat} :
    Together (rows.refine classes) i j ↔ Together classes i j := by
  rw [together_refine]
  refine and_iff_left_of_imp fun htogether => ?_
  exact key_eq_of_length_split h.nonempty hlength htogether

/-- Refining ends with a round that adds no class, if there are as many rounds as it takes to add
all classes there may be. -/
theorem exists_refineAll_eq {motive : List (List Nat) → Prop}
    (hstep : ∀ classes, Divides classes (List.range rows.size) → motive classes →
      motive (rows.refine classes))
    {rounds : Nat} {classes : List (List Nat)} (hdivides : Divides classes (List.range rows.size))
    (hrounds : rows.size < rounds + classes.length) (hclasses : motive classes) :
    ∃ last, Divides last (List.range rows.size) ∧ motive last ∧
      (rows.refine last).length = last.length ∧
        Id.run (refineAll Meter.free rows rounds classes) = rows.refine last := by
  induction rounds generalizing classes with
  | zero =>
    have hbound := hdivides.length_le
    rw [List.length_range] at hbound
    omega
  | succ rounds ih =>
    by_cases hlength : (rows.refine classes).length = classes.length
    · refine ⟨classes, hdivides, hclasses, hlength, ?_⟩
      simp [refineAll, hlength]
    · have hgrows : classes.length ≤ (rows.refine classes).length :=
        length_le_split _ hdivides.nonempty
      obtain ⟨last, hlast⟩ :=
        ih (divides_refine hdivides) (by omega) (hstep classes hdivides hclasses)
      refine ⟨last, ?_⟩
      simpa [refineAll, hlength] using hlast

end Rounds

section Places

/-- The first numbers of classes that divide different numbers differ. -/
theorem nodup_heads {classes : List (List Nat)} (hnodup : classes.flatten.Nodup)
    (hnonempty : ∀ c ∈ classes, c ≠ []) (size : Nat) : (classes.map (·.headD size)).Nodup := by
  induction classes with
  | nil => exact List.nodup_nil
  | cons c classes ih =>
    rw [List.flatten_cons, List.nodup_append] at hnodup
    have htail : ∀ d ∈ classes, d ≠ [] := fun d hd => hnonempty d (List.mem_cons_of_mem c hd)
    have hhead {d : List Nat} (hd : d ≠ []) : d.headD size ∈ d := by
      obtain ⟨i, d, rfl⟩ := List.exists_cons_of_ne_nil hd
      exact List.mem_cons_self
    refine List.nodup_cons.mpr ⟨?_, ih hnodup.2.1 htail⟩
    intro hmem
    obtain ⟨d, hd, heq⟩ := List.mem_map.mp hmem
    refine hnodup.2.2 _ (hhead (hnonempty c List.mem_cons_self)) _
      (List.mem_flatten.mpr ⟨d, hd, hhead (htail d hd)⟩) heq.symm

/-- A place stays as it is if no class begins with its number. -/
theorem getElem?_foldl_places_of_notMem (size : Nat) (classes : List (List Nat))
    (places : Array (List Nat)) {i : Nat} (hi : i ∉ classes.map (·.headD size)) :
    (classes.foldl (fun places c => places.setIfInBounds (c.headD size) c) places)[i]? =
      places[i]? := by
  induction classes generalizing places with
  | nil => rfl
  | cons c classes ih =>
    rw [List.map_cons, List.mem_cons, not_or] at hi
    rw [List.foldl_cons, ih _ hi.2, Array.getElem?_setIfInBounds_ne (Ne.symm hi.1)]

/-- A class is put at the place of its first number. -/
theorem getElem?_foldl_places (size : Nat) (classes : List (List Nat))
    (places : Array (List Nat)) (hnodup : (classes.map (·.headD size)).Nodup) {c : List Nat}
    (hc : c ∈ classes) (hsize : c.headD size < places.size) :
    (classes.foldl (fun places c => places.setIfInBounds (c.headD size) c) places)[c.headD size]? =
      some c := by
  induction classes generalizing places with
  | nil => contradiction
  | cons d classes ih =>
    obtain ⟨hnot, hnodup⟩ := List.nodup_cons.mp hnodup
    rw [List.foldl_cons]
    rcases List.mem_cons.mp hc with rfl | hc
    · rw [getElem?_foldl_places_of_notMem size classes _ hnot,
        Array.getElem?_setIfInBounds_self_of_lt hsize]
    · exact ih _ hnodup hc (by rwa [Array.size_setIfInBounds])

/-- What is at the places are classes, or what was there before. -/
theorem mem_of_mem_foldl_places (size : Nat) (classes : List (List Nat))
    (places : Array (List Nat)) {c : List Nat}
    (hc : c ∈ classes.foldl (fun places c => places.setIfInBounds (c.headD size) c) places) :
    c ∈ classes ∨ c ∈ places := by
  induction classes generalizing places with
  | nil => exact .inr hc
  | cons d classes ih =>
    rcases ih _ hc with hc | hc
    · exact .inl (List.mem_cons_of_mem d hc)
    · rcases Array.mem_or_eq_of_mem_setIfInBounds hc with hc | rfl
      · exact .inr hc
      · exact .inl List.mem_cons_self

/-- What is put at a place begins with the number of the place, unless it is nothing. -/
theorem headD_of_getElem?_foldl_places (size : Nat) (classes : List (List Nat))
    (places : Array (List Nat))
    (hplaces : ∀ (i : Nat) (c : List Nat), places[i]? = some c → c ≠ [] → c.headD size = i)
    {i : Nat} {c : List Nat}
    (h : (classes.foldl (fun places c => places.setIfInBounds (c.headD size) c) places)[i]? =
      some c)
    (hc : c ≠ []) : c.headD size = i := by
  induction classes generalizing places with
  | nil => exact hplaces i c h hc
  | cons d classes ih =>
    refine ih _ (fun j e he hne => ?_) h
    rw [Array.getElem?_setIfInBounds] at he
    split at he
    · rename_i hsame
      split at he
      · rw [← Option.some.inj he]
        exact hsame
      · contradiction
    · exact hplaces j e he hne

/-- No class is at two places. -/
theorem headD_of_getElem?_atFirst {size i : Nat} {classes : List (List Nat)} {c : List Nat}
    (h : (atFirst size classes)[i]? = some c) (hc : c ≠ []) : c.headD size = i := by
  refine headD_of_getElem?_foldl_places size classes _ (fun j e he hne => ?_) h hc
  exact absurd (Array.eq_of_mem_replicate (Array.mem_of_getElem? he)) hne

/-- Putting classes in order neither adds nor loses one. -/
theorem mem_atFirst {size : Nat} {classes : List (List Nat)}
    (h : Divides classes (List.range size)) {c : List Nat} (hc : c ≠ []) :
    c ∈ atFirst size classes ↔ c ∈ classes := by
  constructor
  · intro hmem
    refine (mem_of_mem_foldl_places size classes _ hmem).resolve_right fun hblank => ?_
    exact hc (Array.eq_of_mem_replicate hblank)
  · intro hmem
    have hnodup : classes.flatten.Nodup := h.perm.nodup_iff.mpr List.nodup_range
    have hhead : c.headD size < size := by
      obtain ⟨i, c, rfl⟩ := List.exists_cons_of_ne_nil hc
      have hi := h.perm.mem_iff.mp (List.mem_flatten.mpr ⟨_, hmem, List.mem_cons_self⟩)
      simpa using hi
    have hplace := getElem?_foldl_places size classes (Array.replicate size [])
      (nodup_heads hnodup h.nonempty size) hmem (by simpa using hhead)
    exact Array.mem_of_getElem? hplace

end Places

end RegularLanguages.SuccessorRows
