import Mathlib.Data.List.DropRight
import Mathlib.Data.List.Nodup
import RegularLanguages.Conversion.Cache

/-!
# Caches forget in the order of arrival

Of the keys that have come in since a cache was cleared, the last ones are in it, as many as it has
room for. A key comes in when a value is stored under it while it is not in the cache; another value
for a key that is there takes the place of the value before it. So what is found under a key that is
there is what was stored under it last.
-/

namespace RegularLanguages.Cache

variable {κ τ : Type} {El : τ → Type} [DecidableEq κ] {cache : Cache κ El} {key : κ} {t : τ}
  {value : El t}

/-! ## What storing a value changes -/

/-- Storing a value does not change the capacity. -/
theorem capacity_insert : (cache.insert key t value).capacity = cache.capacity := by
  unfold insert
  split
  · rfl
  · split <;> rfl

/-- A cache without capacity stores nothing. -/
theorem insert_of_capacity_eq_zero (h : cache.capacity = 0) : cache.insert key t value = cache :=
  if_pos h

/-- From a cache without capacity nothing has to go. -/
theorem evictions_of_capacity_eq_zero (h : cache.capacity = 0) :
    cache.evictions key = 0 := if_pos (.inl h)

/-- For a key that is there nothing has to go. -/
theorem evictions_of_mem_keys (h : key ∈ cache.keys) : cache.evictions key = 0 := if_pos (.inr h)

/-- For a new key, what is too much has to go. -/
theorem evictions_of_notMem_keys (hcapacity : 0 < cache.capacity) (h : key ∉ cache.keys) :
    cache.evictions key = cache.size + 1 - cache.capacity :=
  if_neg (not_or.mpr ⟨hcapacity.ne', h⟩)

/-- A new value for a key that is there leaves all keys in their places. -/
theorem keys_insert_of_mem (h : key ∈ cache.keys) :
    (cache.insert key t value).keys = cache.keys := by
  by_cases hzero : cache.capacity = 0
  · rw [insert_of_capacity_eq_zero hzero]
  · rw [insert, if_neg hzero, if_pos h, keys, keys, List.map_map]
    refine List.map_congr_left fun entry _ => ?_
    rw [Function.comp_apply]
    split <;> rfl

/-- A new key comes last, and the keys that have to go for it are the first ones. -/
theorem keys_insert_of_notMem (hcapacity : 0 < cache.capacity) (h : key ∉ cache.keys) :
    (cache.insert key t value).keys = cache.keys.drop (cache.evictions key) ++ [key] := by
  rw [insert, if_neg hcapacity.ne', if_neg h, keys, keys, List.map_append, List.map_drop]
  rfl

/-- A value under a new key takes a place, and what has to go makes room for it. -/
theorem size_insert (cache : Cache κ El) {key : κ} {t : τ} (value : El t)
    (hcapacity : 0 < cache.capacity) (hkey : key ∉ cache.keys) :
    (cache.insert key t value).size ≤ cache.capacity ∧
      (cache.insert key t value).size + cache.evictions key = cache.size + 1 := by
  have hevictions := evictions_of_notMem_keys hcapacity hkey
  have hinsert : (cache.insert key t value).size = cache.size - cache.evictions key + 1 := by
    rw [insert, if_neg hcapacity.ne', if_neg hkey, size, List.length_append, List.length_drop]
    rfl
  omega

/-- After a value was stored, the entries are that value under its key and entries from before under
other keys. -/
theorem of_mem_insert (hcapacity : 0 < cache.capacity) {entry : κ × Sigma El}
    (h : entry ∈ (cache.insert key t value).entries) :
    (entry ∈ cache.entries ∧ entry.1 ≠ key) ∨ entry = (key, ⟨t, value⟩) := by
  rw [insert, if_neg hcapacity.ne'] at h
  by_cases hkey : key ∈ cache.keys
  · rw [if_pos hkey] at h
    obtain ⟨old, hold, rfl⟩ := List.mem_map.mp h
    by_cases hsame : old.1 = key
    · exact .inr (by rw [if_pos hsame, hsame])
    · rw [if_neg hsame]
      exact .inl ⟨hold, hsame⟩
  · rw [if_neg hkey] at h
    rcases List.mem_append.mp h with h | h
    · have hold := List.mem_of_mem_drop h
      exact .inl ⟨hold, fun hsame => hkey (hsame ▸ List.mem_map_of_mem hold)⟩
    · exact .inr (List.mem_singleton.mp h)

/-- Storing a value adds no other entry. -/
theorem mem_of_mem_insert {entry : κ × Sigma El}
    (h : entry ∈ (cache.insert key t value).entries) :
    entry ∈ cache.entries ∨ entry = (key, ⟨t, value⟩) := by
  rcases Nat.eq_zero_or_pos cache.capacity with hzero | hpos
  · rw [insert_of_capacity_eq_zero hzero] at h
    exact .inl h
  · exact (of_mem_insert hpos h).imp_left And.left

/-! ## Making room entry by entry -/

/-- Removes the first entry as long as there is no room for a new key, and counts what it
removes. -/
def makeRoom (capacity : Nat) (key : κ) : List (κ × Sigma El) → List (κ × Sigma El) × Nat
  | [] => ([], 0)
  | entry :: rest =>
    if capacity ≤ rest.length + 1 ∧ key ∉ (entry :: rest).map (·.1) then
      let (kept, removed) := makeRoom capacity key rest
      (kept, removed + 1)
    else (entry :: rest, 0)

/-- Puts a value under its key where the key is, or at the end. -/
def put (entries : List (κ × Sigma El)) (key : κ) (stored : Sigma El) : List (κ × Sigma El) :=
  if key ∈ entries.map (·.1) then
    entries.map fun entry => if entry.1 = key then (entry.1, stored) else entry
  else entries ++ [(key, stored)]

/-- Stores a value after room was made for it, and says how many entries had to go. -/
def insertMakingRoom (cache : Cache κ El) (key : κ) (t : τ) (value : El t) : Cache κ El × Nat :=
  if cache.capacity = 0 then (cache, 0)
  else
    let (kept, removed) := makeRoom cache.capacity key cache.entries
    ({ cache with entries := put kept key ⟨t, value⟩ }, removed)

/-- Putting a value under a key that is there replaces what was under it and leaves the order
alone. -/
theorem put_of_mem {entries : List (κ × Sigma El)} {stored : Sigma El}
    (h : key ∈ entries.map (·.1)) :
    put entries key stored =
      entries.map fun entry => if entry.1 = key then (entry.1, stored) else entry := if_pos h

/-- Putting a value under a new key adds an entry at the end. -/
theorem put_of_notMem {entries : List (κ × Sigma El)} {stored : Sigma El}
    (h : key ∉ entries.map (·.1)) : put entries key stored = entries ++ [(key, stored)] := if_neg h

/-- For a key that is there no entry is removed. -/
theorem makeRoom_of_mem {capacity : Nat} {entries : List (κ × Sigma El)}
    (h : key ∈ entries.map (·.1)) : makeRoom capacity key entries = (entries, 0) := by
  cases entries with
  | nil => rfl
  | cons entry rest => exact if_neg fun hfull => hfull.2 h

/-- For a new key the loop ends when one place is free. -/
theorem makeRoom_of_notMem {capacity : Nat} {entries : List (κ × Sigma El)}
    (hcapacity : 0 < capacity) (h : key ∉ entries.map (·.1)) :
    makeRoom capacity key entries =
      (entries.drop (entries.length + 1 - capacity), entries.length + 1 - capacity) := by
  induction entries with
  | nil =>
    rw [makeRoom, List.drop_nil, List.length_nil, Nat.sub_eq_zero_of_le hcapacity]
  | cons entry rest ih =>
    have hrest : key ∉ rest.map (·.1) := fun hmem => h (List.mem_cons_of_mem _ hmem)
    rw [makeRoom, List.length_cons]
    by_cases hfull : capacity ≤ rest.length + 1
    · rw [if_pos ⟨hfull, h⟩, ih hrest, Nat.sub_add_comm hfull]
      rfl
    · rw [if_neg fun hroom => hfull hroom.1, Nat.sub_eq_zero_of_le (Nat.not_le.mp hfull)]
      rfl

/-- Removing what is too much at once and removing entry by entry come to the same. -/
theorem insertMakingRoom_eq (cache : Cache κ El) (key : κ) (t : τ) (value : El t) :
    cache.insertMakingRoom key t value = (cache.insert key t value, cache.evictions key) := by
  rcases Nat.eq_zero_or_pos cache.capacity with hzero | hpos
  · rw [insert_of_capacity_eq_zero hzero, evictions_of_capacity_eq_zero hzero]
    exact if_pos hzero
  · rw [insertMakingRoom, if_neg hpos.ne', insert, if_neg hpos.ne']
    by_cases hkey : key ∈ cache.keys
    · rw [makeRoom_of_mem hkey, evictions_of_mem_keys hkey, if_pos hkey]
      exact congrArg (fun entries => ({ cache with entries }, 0)) (put_of_mem hkey)
    · have hkept : key ∉ (cache.entries.drop (cache.evictions key)).map (·.1) := by
        rw [List.map_drop]
        exact fun hmem => hkey (List.mem_of_mem_drop hmem)
      have hroom : makeRoom cache.capacity key cache.entries =
          (cache.entries.drop (cache.evictions key), cache.evictions key) := by
        rw [evictions_of_notMem_keys hpos hkey]
        exact makeRoom_of_notMem hpos hkey
      rw [hroom, if_neg hkey]
      exact congrArg (fun entries => ({ cache with entries }, cache.evictions key))
        (put_of_notMem hkept)

/-! ## What is found -/

section Found

variable [DecidableEq τ]

/-- A value that is found was stored under its key. -/
theorem mem_of_get? (h : cache.get? t key = some value) : (key, ⟨t, value⟩) ∈ cache.entries := by
  unfold get? at h
  split at h
  · rename_i u stored hfind
    split at h
    · rename_i htype
      subst htype
      obtain rfl := Option.some.inj h
      obtain ⟨⟨key', entry⟩, hfound, rfl⟩ := Option.map_eq_some_iff.mp hfind
      have hkey : key' = key := by simpa using List.find?_some hfound
      subst hkey
      exact List.mem_of_find?_eq_some hfound
    · contradiction
  · contradiction

omit [DecidableEq τ] in
/-- If every key is there once only, the value under a key is the one that was stored there. -/
theorem find?_of_mem (hnodup : cache.keys.Nodup) {stored : Sigma El}
    (h : (key, stored) ∈ cache.entries) : cache.find? key = some stored := by
  cases hfound : cache.entries.find? fun entry => entry.1 = key with
  | none => exact absurd (List.find?_eq_none.mp hfound _ h) (by simp)
  | some found =>
    have hkey : found.1 = key := by simpa using List.find?_some hfound
    have hsame := List.inj_on_of_nodup_map hnodup (List.mem_of_find?_eq_some hfound) h hkey
    rw [find?, hfound, hsame]
    rfl

/-- If every key is there once only, a value is found under a key exactly if it was stored there. -/
theorem get?_eq_some_iff (hnodup : cache.keys.Nodup) :
    cache.get? t key = some value ↔ (key, ⟨t, value⟩) ∈ cache.entries := by
  refine ⟨mem_of_get?, fun h => ?_⟩
  rw [get?, find?_of_mem hnodup h]
  exact dif_pos rfl

/-- If all entries have the types that their keys decide, then only new keys are not found. -/
theorem notMem_keys_of_get?_eq_none (typeOf : κ → τ)
    (htypes : ∀ entry ∈ cache.entries, entry.2.1 = typeOf entry.1)
    (h : cache.get? (typeOf key) key = none) : key ∉ cache.keys := by
  intro hmem
  obtain ⟨entry, hentry, hkey⟩ := List.mem_map.mp hmem
  cases hfind : cache.entries.find? fun entry => entry.1 = key with
  | none => exact List.find?_eq_none.mp hfind entry hentry (decide_eq_true hkey)
  | some found =>
    obtain ⟨key', u, stored⟩ := found
    obtain rfl : key' = key := by simpa using List.find?_some hfind
    obtain rfl : u = typeOf key' := htypes _ (List.mem_of_find?_eq_some hfind)
    rw [get?, find?, hfind] at h
    simp at h

end Found

/-! ## Histories -/

/-- What is done with a cache. -/
inductive Action (κ : Type) {τ : Type} (El : τ → Type) where
  /-- A value is stored. -/
  | insert (key : κ) (t : τ) (value : El t)
  /-- A value of some type is looked up. -/
  | get (t : τ) (key : κ)
  | clear

/-- The cache after an action. -/
def perform (cache : Cache κ El) : Action κ El → Cache κ El
  | .insert key t value => cache.insert key t value
  | .get _ _ => cache
  | .clear => cache.clear

/-- The cache after several actions, one after another. -/
def after (cache : Cache κ El) (history : List (Action κ El)) : Cache κ El :=
  history.foldl perform cache

/-- A history with one more action is the history and then the action. -/
theorem after_concat (cache : Cache κ El) (history : List (Action κ El)) (action : Action κ El) :
    cache.after (history ++ [action]) = (cache.after history).perform action := by
  rw [after, List.foldl_append]
  rfl

/-- The arrivals after one more action: a key comes in if it is not one of the last ones for which
there is room. -/
def Action.arrive (capacity : Nat) (keys : List κ) : Action κ El → List κ
  | insert key _ _ => if key ∈ keys.rtake capacity then keys else keys ++ [key]
  | get _ _ => keys
  | clear => []

/-- The keys that have come in since everything was cleared, in the order in which they came in. -/
def arrivals (capacity : Nat) (history : List (Action κ El)) : List κ :=
  history.foldl (Action.arrive capacity) []

/-- The keys that have come in after one more action are those before it and what the action brings
in. -/
theorem arrivals_concat (capacity : Nat) (history : List (Action κ El)) (action : Action κ El) :
    arrivals capacity (history ++ [action]) =
      action.arrive capacity (arrivals capacity history) := by
  rw [arrivals, List.foldl_append]
  rfl

/-- What an action stores under a key. -/
def Action.stored? (key : κ) : Action κ El → Option (Sigma El)
  | insert key' t value => if key' = key then some ⟨t, value⟩ else none
  | get _ _ | clear => none

/-- What was stored last under a key, whether or not it is still there. -/
def lastStored? (history : List (Action κ El)) (key : κ) : Option (Sigma El) :=
  (history.filterMap (Action.stored? key)).getLast?

/-- What was stored last under a key is what the last action stores there, and else what was stored
before it. -/
theorem lastStored?_concat (history : List (Action κ El)) (action : Action κ El) (key : κ) :
    lastStored? (history ++ [action]) key =
      (action.stored? key).or (lastStored? history key) := by
  rw [lastStored?, List.filterMap_append, List.getLast?_append]
  cases hstored : action.stored? key <;> simp [hstored, lastStored?]

/-- The end of a list is as long as asked for, unless the whole list is shorter. -/
theorem length_rtake {α : Type} (n : Nat) (l : List α) : (l.rtake n).length = min n l.length := by
  rw [List.rtake_eq_reverse_take_reverse, List.length_reverse, List.length_take,
    List.length_reverse]

/-- A new key among the last keys takes the place of the first of them, unless there is room. -/
theorem rtake_concat {α : Type} {n : Nat} (hn : 0 < n) (l : List α) (x : α) :
    (l ++ [x]).rtake n = (l.rtake n).drop ((l.rtake n).length + 1 - n) ++ [x] := by
  have hdrop : l.length - n + (min n l.length + 1 - n) = (l ++ [x]).length - n := by
    rw [List.length_append, List.length_singleton]
    omega
  have hle : (l ++ [x]).length - n ≤ l.length := by
    rw [List.length_append, List.length_singleton]
    omega
  rw [length_rtake, List.rtake, List.rtake, List.drop_drop, hdrop,
    List.drop_append_of_le_length hle]

/-- A cache is as its history says: its keys are the last ones that came in, and under each is what
was stored there last. -/
structure Reflects (cache : Cache κ El) (history : List (Action κ El)) : Prop where
  keys_eq : cache.keys = (arrivals cache.capacity history).rtake cache.capacity
  nodup_keys : cache.keys.Nodup
  lastStored_eq : ∀ entry ∈ cache.entries, lastStored? history entry.1 = some entry.2

/-- An empty cache is as the empty history says, which starts the induction on histories. -/
theorem reflects_empty (capacity : Nat) : (empty capacity : Cache κ El).Reflects [] where
  keys_eq := List.drop_nil.symm
  nodup_keys := List.nodup_nil
  lastStored_eq _ hentry := absurd hentry List.not_mem_nil

namespace Reflects

variable {history : List (Action κ El)}

/-- There is no more in a cache than there is room for. -/
theorem size_le (h : cache.Reflects history) : cache.size ≤ cache.capacity := by
  have hsize : cache.size = cache.keys.length := (List.length_map _).symm
  rw [hsize, h.keys_eq, length_rtake]
  exact Nat.min_le_left _ _

/-- The keys after a value was stored are the last ones that came in. -/
theorem keys_insert (h : cache.Reflects history) (key : κ) (t : τ) (value : El t) :
    (cache.insert key t value).keys =
      (arrivals cache.capacity (history ++ [.insert key t value])).rtake cache.capacity := by
  rw [arrivals_concat, Action.arrive, ← h.keys_eq]
  by_cases hkey : key ∈ cache.keys
  · rw [if_pos hkey, keys_insert_of_mem hkey]
    exact h.keys_eq
  · rw [if_neg hkey]
    rcases Nat.eq_zero_or_pos cache.capacity with hzero | hpos
    · rw [insert_of_capacity_eq_zero hzero, h.keys_eq, hzero, List.rtake_zero, List.rtake_zero]
    · have hevictions : cache.evictions key = cache.keys.length + 1 - cache.capacity := by
        rw [evictions_of_notMem_keys hpos hkey, size, keys, List.length_map]
      rw [rtake_concat hpos, keys_insert_of_notMem hpos hkey, hevictions, h.keys_eq]

/-- No key is there twice after a value was stored. -/
theorem nodup_keys_insert (h : cache.Reflects history) (key : κ) (t : τ) (value : El t) :
    (cache.insert key t value).keys.Nodup := by
  by_cases hkey : key ∈ cache.keys
  · rw [keys_insert_of_mem hkey]
    exact h.nodup_keys
  · rcases Nat.eq_zero_or_pos cache.capacity with hzero | hpos
    · rw [insert_of_capacity_eq_zero hzero]
      exact h.nodup_keys
    · rw [keys_insert_of_notMem hpos hkey, ← List.concat_eq_append]
      exact (h.nodup_keys.sublist (List.drop_sublist _ _)).concat
        fun hmem => hkey (List.mem_of_mem_drop hmem)

/-- The entries after a value was stored are what was stored last. -/
theorem lastStored_insert (h : cache.Reflects history) (key : κ) (t : τ) (value : El t) :
    ∀ entry ∈ (cache.insert key t value).entries,
      lastStored? (history ++ [.insert key t value]) entry.1 = some entry.2 := by
  intro entry hentry
  rw [lastStored?_concat]
  rcases Nat.eq_zero_or_pos cache.capacity with hzero | hpos
  · have hempty : cache.size = 0 := Nat.le_zero.mp (hzero ▸ h.size_le)
    rw [insert_of_capacity_eq_zero hzero, List.length_eq_zero_iff.mp hempty] at hentry
    contradiction
  · rcases of_mem_insert hpos hentry with ⟨hold, hne⟩ | rfl
    · rw [Action.stored?, if_neg hne.symm, Option.none_or]
      exact h.lastStored_eq entry hold
    · rw [Action.stored?, if_pos rfl]
      rfl

/-- Every action keeps a cache as its history says. -/
theorem perform (h : cache.Reflects history) (action : Action κ El) :
    (cache.perform action).Reflects (history ++ [action]) := by
  cases action with
  | insert key t value =>
    refine ⟨?_, h.nodup_keys_insert key t value, h.lastStored_insert key t value⟩
    rw [Cache.perform, capacity_insert]
    exact h.keys_insert key t value
  | get t key =>
    refine ⟨?_, h.nodup_keys, fun entry hentry => ?_⟩
    · rw [arrivals_concat]
      exact h.keys_eq
    · rw [lastStored?_concat]
      exact h.lastStored_eq entry hentry
  | clear =>
    refine ⟨?_, List.nodup_nil, fun entry hentry => absurd hentry List.not_mem_nil⟩
    rw [arrivals_concat]
    exact List.drop_nil.symm

/-- So do several actions, one after another. -/
theorem after_empty (capacity : Nat) (history : List (Action κ El)) :
    ((empty capacity).after history).Reflects history := by
  induction history using List.reverseRecOn with
  | nil => exact reflects_empty capacity
  | append_singleton history action ih =>
    rw [after_concat]
    exact ih.perform action

/-- What is found under a key is what was stored there last, if the key is still there. -/
theorem get?_eq_some_iff [DecidableEq τ] (h : cache.Reflects history) {key : κ} {t : τ}
    {value : El t} :
    cache.get? t key = some value ↔
      key ∈ cache.keys ∧ lastStored? history key = some ⟨t, value⟩ := by
  rw [Cache.get?_eq_some_iff h.nodup_keys]
  constructor
  · intro hentry
    exact ⟨List.mem_map_of_mem hentry, h.lastStored_eq _ hentry⟩
  · intro hlast
    obtain ⟨hkey, hstored⟩ := hlast
    obtain ⟨⟨key', stored⟩, hentry, rfl⟩ := List.mem_map.mp hkey
    obtain rfl := Option.some.inj ((h.lastStored_eq _ hentry).symm.trans hstored)
    exact hentry

/-- One entry has to go if there is no more room for a new key, and none otherwise. -/
theorem evictions_eq (h : cache.Reflects history) (key : κ) :
    cache.evictions key =
      if 0 < cache.capacity ∧ cache.size = cache.capacity ∧ key ∉ cache.keys then 1 else 0 := by
  have hsize := h.size_le
  by_cases hnew : 0 < cache.capacity ∧ key ∉ cache.keys
  · obtain ⟨hpos, hkey⟩ := hnew
    rw [evictions_of_notMem_keys hpos hkey]
    by_cases hfull : cache.size = cache.capacity
    · rw [if_pos ⟨hpos, hfull, hkey⟩]
      omega
    · rw [if_neg fun h => hfull h.2.1]
      omega
  · have hnone : cache.evictions key = 0 := by
      rcases not_and_or.mp hnew with hzero | hkey
      · exact evictions_of_capacity_eq_zero (Nat.eq_zero_of_not_pos hzero)
      · exact evictions_of_mem_keys (not_not.mp hkey)
    rw [hnone, if_neg fun hfull => hnew ⟨hfull.1, hfull.2.2⟩]

end Reflects

/-- No history changes the capacity of a cache. -/
theorem capacity_after (cache : Cache κ El) (history : List (Action κ El)) :
    (cache.after history).capacity = cache.capacity := by
  induction history using List.reverseRecOn with
  | nil => rfl
  | append_singleton history action ih =>
    rw [after_concat, ← ih]
    cases action with
    | insert key t value => exact capacity_insert
    | get t key | clear => rfl

/-- Whatever was stored, looked up and cleared: the keys of a cache are the last ones that came in,
as many as there is room for and none twice. Under a key a value of some type is found exactly if
the key is still there and what was stored under it last is this value of this type. Storing a value
makes one entry go if there is no more room for a new key, and none otherwise. A key that is there
keeps its place, a new one comes last, and it is the first one that goes, as it is when the first
entry is removed as long as there is no room. Without room nothing is stored. -/
theorem keeps_last_arrivals [DecidableEq τ] (capacity : Nat) (history : List (Action κ El)) :
    let cache := (empty capacity : Cache κ El).after history
    (cache.keys = (arrivals capacity history).rtake capacity ∧ cache.keys.Nodup) ∧
      (∀ key t value, cache.get? t key = some value ↔
        key ∈ cache.keys ∧ lastStored? history key = some ⟨t, value⟩) ∧
      (∀ key, cache.evictions key =
        if 0 < capacity ∧ cache.size = capacity ∧ key ∉ cache.keys then 1 else 0) ∧
      (∀ key t value, key ∈ cache.keys → (cache.insert key t value).keys = cache.keys) ∧
      (∀ key t value, 0 < capacity → key ∉ cache.keys →
        (cache.insert key t value).keys = cache.keys.drop (cache.evictions key) ++ [key]) ∧
      (∀ key t value, cache.insertMakingRoom key t value =
        (cache.insert key t value, cache.evictions key)) ∧
      (capacity = 0 → cache.entries = []) := by
  intro cache
  have hcapacity : cache.capacity = capacity := capacity_after _ history
  have hreflects : cache.Reflects history := .after_empty capacity history
  have hkeys := hreflects.keys_eq
  have hevictions := hreflects.evictions_eq
  have hsize := hreflects.size_le
  rw [hcapacity] at hkeys hsize
  simp only [hcapacity] at hevictions
  refine ⟨⟨hkeys, hreflects.nodup_keys⟩, fun _ _ _ => hreflects.get?_eq_some_iff, hevictions,
    fun _ _ _ => keys_insert_of_mem, fun _ _ _ hpos => ?_, insertMakingRoom_eq cache,
    fun hzero => ?_⟩
  · exact keys_insert_of_notMem (hcapacity.symm ▸ hpos)
  · exact List.length_eq_zero_iff.mp (Nat.le_zero.mp (hzero ▸ hsize))

/-- Numbers and texts in a cache with room for two: the third key makes the first one go, and a
number takes the place of the text under the second. A cache without room stays empty. -/
theorem keeps_last_arrivals_of_three_keys :
    let history : List (Action Nat fun isText : Bool => cond isText String Nat) :=
      [.insert 1 false (10 : Nat), .insert 2 true "x", .insert 3 false (30 : Nat), .get true 2,
        .insert 2 false (20 : Nat)]
    let cache := (empty 2).after history
    cache.keys = [2, 3] ∧ cache.get? false 2 = some (20 : Nat) ∧ cache.get? true 2 ≠ some "x" ∧
      cache.evictions 2 = 0 ∧ cache.evictions 1 = 1 ∧
      (cache.insert 1 true "y").keys = [3, 1] ∧ (cache.insert 3 true "y").keys = [2, 3] ∧
      ((empty 0).after history).entries = [] := by
  intro history cache
  obtain ⟨⟨hkeys, -⟩, hget, hevictions, hold, hnew, -⟩ := keeps_last_arrivals 2 history
  obtain ⟨-, -, -, -, -, -, hnothing⟩ := keeps_last_arrivals 0 history
  have harrivals : arrivals 2 history = [1, 2, 3] := by decide
  have hlast : lastStored? history 2 = some ⟨false, (20 : Nat)⟩ := rfl
  have hcache : cache.keys = [2, 3] := by rw [hkeys, harrivals]; rfl
  have hone : cache.evictions 1 = 1 := by rw [hevictions, hcache]; decide
  have htwo : 2 ∈ cache.keys := by rw [hcache]; decide
  have hthree : 3 ∈ cache.keys := by rw [hcache]; decide
  have hgone : 1 ∉ cache.keys := by rw [hcache]; decide
  refine ⟨hcache, (hget 2 false _).mpr ⟨htwo, hlast⟩, fun htext => ?_, ?_, hone, ?_,
    (hold 3 true "y" hthree).trans hcache, hnothing rfl⟩
  · have hstored := ((hget 2 true _).mp htext).2
    rw [hlast] at hstored
    cases hstored
  · rw [hevictions, hcache]
    decide
  · rw [hnew 1 true "y" Nat.two_pos hgone, hone, hcache]
    rfl

end RegularLanguages.Cache
