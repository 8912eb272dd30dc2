import Mathlib.Tactic.Tauto
import RegularLanguages.Automaton.Table
import RegularLanguages.Proofs.FiniteSets

/-!
# What tables of transitions hold

A table is seen through the successors of a source and a label. Every operation on tables is
described by what it does to this view; the nesting of rows inside a table is not mentioned again
afterwards.
-/

namespace RegularLanguages

namespace Rows

variable {L V : Type} [Ord L] [Std.TransOrd L]

/-- There is nothing in a table without rows. -/
@[simp] theorem get?_empty (q : State) (l : L) : (empty : Rows L V).get? q l = none := by
  simp [get?, empty]

/-- A row that is found by its source has the entries that `get?` sees. -/
theorem get?_of_getElem? {r : Rows L V} {q : State} {row : Std.ExtTreeMap L V}
    (h : r.rows[q]? = some row) (l : L) : r.get? q l = row[l]? := by
  simp [get?, h]

/-- A label leads to what the row of its source has for it. -/
theorem get?_eq_some_iff {r : Rows L V} {q : State} {l : L} {v : V} :
    r.get? q l = some v ↔ ∃ row : Std.ExtTreeMap L V, r.rows[q]? = some row ∧ row[l]? = some v := by
  rw [get?]
  cases r.rows[q]? <;> simp

variable [Std.LawfulEqOrd L]

/-- Setting an entry changes what its own source and label lead to, and nothing else. -/
theorem get?_set [DecidableEq L] (r : Rows L V) (p q : State) (l m : L) (v : V) :
    (r.set p l v).get? q m = if q = p ∧ m = l then some v else r.get? q m := by
  by_cases hq : q = p
  · subst hq
    by_cases hm : m = l
    · simp [get?, set, hm]
    · have hlm : l ≠ m := fun h => hm h.symm
      cases hrow : r.rows[q]? with
      | none => simp [get?, set, hrow, hm, hlm, Std.ExtTreeMap.getD_eq_getD_getElem?]
      | some row => simp [get?, set, hrow, hm, hlm, Std.ExtTreeMap.getElem?_insert,
          Std.ExtTreeMap.getD_eq_getD_getElem?]
  · have hpq : p ≠ q := fun h => hq h.symm
    simp [get?, set, hq, hpq, Std.ExtTreeMap.getElem?_insert]

/-- The list of entries holds exactly what the labels of each source lead to. -/
theorem mem_entries {r : Rows L V} {q : State} {l : L} {v : V} :
    (q, l, v) ∈ r.entries ↔ r.get? q l = some v := by
  simp only [entries, List.mem_flatMap, List.mem_map, Prod.mk.injEq, Prod.exists,
    Std.ExtTreeMap.mem_toList_iff_getElem?_eq_some, get?_eq_some_iff]
  constructor
  · intro h
    obtain ⟨p, row, hrow, m, u, hentry, rfl, rfl, rfl⟩ := h
    exact ⟨row, hrow, hentry⟩
  · intro h
    obtain ⟨row, hrow, hentry⟩ := h
    exact ⟨q, row, hrow, l, v, hentry, rfl, rfl, rfl⟩

omit [Std.LawfulEqOrd L] in
/-- The entries are listed in ascending order of sources and labels. -/
theorem ordered_entries (r : Rows L V) : r.entries.Pairwise fun x y =>
    compare x.1 y.1 = .lt ∨ (x.1 = y.1 ∧ compare x.2.1 y.2.1 = .lt) := by
  apply List.pairwise_flatMap.mpr
  constructor
  · intro row _
    rw [List.pairwise_map]
    exact Std.ExtTreeMap.ordered_keys_toList.imp fun hlt => .inr ⟨rfl, hlt⟩
  · refine Std.ExtTreeMap.ordered_keys_toList.imp fun hlt x hx y hy => ?_
    obtain ⟨_, _, rfl⟩ := List.mem_map.mp hx
    obtain ⟨_, _, rfl⟩ := List.mem_map.mp hy
    exact .inl hlt

end Rows

/-- Transitions over symbols, put as edges, are those edges that read a symbol. -/
theorem mem_map_symbol {ts : List (State × Symbol × State)} {p q : State} {l : Label} :
    (⟨p, l, q⟩ : Edge) ∈ ts.map (fun (p, a, q) => (⟨p, .symbol a, q⟩ : Edge)) ↔
      ∃ a, l = .symbol a ∧ (p, a, q) ∈ ts := by
  simp only [List.mem_map, Prod.exists, Edge.mk.injEq]
  constructor
  · intro h
    obtain ⟨p, a, q, h, rfl, rfl, rfl⟩ := h
    exact ⟨a, rfl, h⟩
  · intro h
    obtain ⟨a, rfl, h⟩ := h
    exact ⟨p, a, q, h, rfl, rfl, rfl⟩

namespace DeterministicTable

/-- A deterministic table without rows has no successors. -/
@[simp] theorem successor?_empty (q : State) (a : Symbol) :
    successor? ⟨.empty⟩ q a = none := Rows.get?_empty q a

/-- Putting a transition decides its own source and symbol and leaves the others alone. -/
theorem successor?_put (t : DeterministicTable) (p q r : State) (a b : Symbol) :
    (t.put p a r).successor? q b = if q = p ∧ b = a then some r else t.successor? q b :=
  Rows.get?_set t.rows p q a b r

/-- The listed transitions are those that the successors show. -/
theorem mem_triples {t : DeterministicTable} {p : State} {a : Symbol} {q : State} :
    (p, a, q) ∈ t.triples ↔ t.successor? p a = some q := Rows.mem_entries

/-- A source and a symbol that no new transition mentions keep their successor. -/
theorem successor?_putAll_of_forall_ne (ts : List (State × Symbol × State))
    (t : DeterministicTable) (p : State) (a : Symbol)
    (h : ∀ q, (p, a, q) ∉ ts) : (t.putAll ts).successor? p a = t.successor? p a := by
  induction ts generalizing t with
  | nil => rfl
  | cons x ts ih =>
    obtain ⟨p', a', q'⟩ := x
    have hne : ¬(p = p' ∧ a = a') := fun ⟨hp, ha⟩ => h q' (by simp [hp, ha])
    have htail : ∀ q, (p, a, q) ∉ ts := fun q hq => h q (List.mem_cons_of_mem _ hq)
    change ((t.put p' a' q').putAll ts).successor? p a = t.successor? p a
    rw [ih _ htail, successor?_put, if_neg hne]

/-- A new transition is found if no other new one disagrees with it. -/
theorem successor?_putAll_of_mem (ts : List (State × Symbol × State))
    (t : DeterministicTable) {p : State} {a : Symbol} {q : State} (hmem : (p, a, q) ∈ ts)
    (hunique : ∀ r, (p, a, r) ∈ ts → r = q) : (t.putAll ts).successor? p a = some q := by
  induction ts generalizing t with
  | nil => simp at hmem
  | cons x ts ih =>
    obtain ⟨p', a', q'⟩ := x
    have htail : ∀ r, (p, a, r) ∈ ts → r = q := fun r hr => hunique r (List.mem_cons_of_mem _ hr)
    change ((t.put p' a' q').putAll ts).successor? p a = some q
    by_cases hlater : ∃ r, (p, a, r) ∈ ts
    · obtain ⟨r, hr⟩ := hlater
      exact ih _ (htail r hr ▸ hr) htail
    · have hhead : p = p' ∧ a = a' ∧ q = q' := by
        simpa using (List.mem_cons.mp hmem).resolve_right fun h => hlater ⟨q, h⟩
      obtain ⟨rfl, rfl, rfl⟩ := hhead
      rw [successor?_putAll_of_forall_ne ts _ p a fun r hr => hlater ⟨r, hr⟩, successor?_put,
        if_pos ⟨rfl, rfl⟩]

/-- Whatever is found after putting transitions into a table is one of them or was there before. -/
theorem mem_or_successor?_of_putAll {ts : List (State × Symbol × State)} {t : DeterministicTable}
    {p : State} {a : Symbol} {q : State} (h : (t.putAll ts).successor? p a = some q) :
    (p, a, q) ∈ ts ∨ t.successor? p a = some q := by
  induction ts generalizing t with
  | nil => exact .inr h
  | cons x ts ih =>
    obtain ⟨p', a', q'⟩ := x
    rcases ih h with hlater | hput
    · exact .inl (List.mem_cons_of_mem _ hlater)
    · rw [successor?_put] at hput
      split at hput
      · rename_i hsame
        obtain ⟨rfl, rfl⟩ := hsame
        obtain rfl := Option.some.inj hput
        exact .inl List.mem_cons_self
      · exact .inr hput

/-- A table made of transitions holds none but these. -/
theorem mem_of_successor?_ofTriples {ts : List (State × Symbol × State)} {p : State} {a : Symbol}
    {q : State} (h : (ofTriples ts).successor? p a = some q) : (p, a, q) ∈ ts :=
  (mem_or_successor?_of_putAll h).resolve_right (by simp)

/-- A table made of transitions that do not contradict each other holds exactly these. -/
theorem successor?_ofTriples {ts : List (State × Symbol × State)}
    (hunique : ∀ p a q r, (p, a, q) ∈ ts → (p, a, r) ∈ ts → r = q) {p : State} {a : Symbol}
    {q : State} : (ofTriples ts).successor? p a = some q ↔ (p, a, q) ∈ ts := by
  constructor
  · exact mem_of_successor?_ofTriples
  · intro h
    exact successor?_putAll_of_mem ts _ h fun r hr => hunique p a q r h hr

/-- Restricting keeps the transitions with both ends kept. -/
theorem successor?_restrict (t : DeterministicTable) (keep : State → Bool) (p : State)
    (a : Symbol) :
    (t.restrict keep).successor? p a =
      if keep p then (t.successor? p a).filter keep else none := by
  unfold successor? restrict Rows.get?
  rw [Std.ExtTreeMap.getElem?_filterMap']
  cases t.rows.rows[p]? with
  | none => simp
  | some row =>
    by_cases hp : keep p
    · simp only [hp, if_true, Option.bind_some, Std.ExtTreeMap.getElem?_filter']
    · simp [hp]

/-- A deterministic table lists its transitions as edges over symbols. -/
theorem mem_edges {t : DeterministicTable} {p q : State} {l : Label} :
    ⟨p, l, q⟩ ∈ TransitionTable.edges t ↔ ∃ a, l = .symbol a ∧ t.successor? p a = some q := by
  simp only [TransitionTable.edges, mem_map_symbol, mem_triples]

/-- A transition that is added reads a symbol that led nowhere else, and is put into the table. -/
theorem of_insert_eq_ok {t u : DeterministicTable} {e : Edge} (h : t.insert e = .ok u) :
    ∃ a, e.label = .symbol a ∧ (∀ q, t.successor? e.source a = some q → q = e.target) ∧
      u = t.put e.source a e.target := by
  unfold insert at h
  split at h
  · contradiction
  · rename_i a hlabel
    split at h
    · rename_i q hq
      split at h
      · rename_i htarget
        obtain rfl := Except.ok.inj h
        refine ⟨a, hlabel, fun r hr => ?_, rfl⟩
        rw [hq, Option.some.injEq] at hr
        rw [← hr, htarget]
      · contradiction
    · rename_i hfree
      obtain rfl := Except.ok.inj h
      exact ⟨a, hlabel, fun r hr => by simp [hfree] at hr, rfl⟩

end DeterministicTable

namespace EdgeTable

variable {L : Type} [Ord L] [Std.TransOrd L]

/-- A table with sets of successors but no rows has no successors. -/
@[simp] theorem successors_empty (p : State) (l : L) :
    (empty : EdgeTable L).successors p l = ∅ := by
  simp [successors, empty]

/-- A label leads from a set of states to the successors of its members. -/
theorem mem_step {t : EdgeTable L} {states : StateSet} {l : L} {q : State} :
    q ∈ t.step states l ↔ ∃ p ∈ states, q ∈ t.successors p l := by
  simp [step]

/-- There are no more sources with successors than rows. -/
theorem mem_keys_of_mem_successors {t : EdgeTable L} {p q : State} {l : L}
    (h : q ∈ t.successors p l) : p ∈ t.rows.rows.keys := by
  rw [Std.ExtTreeMap.mem_keys]
  by_contra hnot
  have hrow : t.rows.rows[p]? = none := Std.ExtTreeMap.getElem?_eq_none hnot
  simp [successors, Rows.get?, hrow] at h

variable [Std.LawfulEqOrd L]

/-- Adding a transition adds one target to its own source and label. -/
theorem mem_successors_add (t : EdgeTable L) {p q r s : State} {l m : L} :
    s ∈ (t.add p l r).successors q m ↔ (q = p ∧ m = l ∧ s = r) ∨ s ∈ t.successors q m := by
  classical
  simp only [successors, add, Rows.get?_set]
  by_cases h : q = p ∧ m = l
  · obtain ⟨rfl, rfl⟩ := h
    rw [if_pos ⟨rfl, rfl⟩, Option.getD_some, FiniteSet.mem_insert]
    simp
  · rw [if_neg h]
    have hnot : ¬(q = p ∧ m = l ∧ s = r) := fun ⟨hq, hm, _⟩ => h ⟨hq, hm⟩
    simp [hnot]

/-- Adding several transitions adds exactly their targets. -/
theorem mem_successors_addAll (ts : List (State × L × State)) (t : EdgeTable L) {p q : State}
    {l : L} : q ∈ (t.addAll ts).successors p l ↔ (p, l, q) ∈ ts ∨ q ∈ t.successors p l := by
  induction ts generalizing t with
  | nil => simp [addAll]
  | cons x ts ih =>
    obtain ⟨p', l', q'⟩ := x
    change q ∈ ((t.add p' l' q').addAll ts).successors p l ↔ _
    rw [ih, mem_successors_add, List.mem_cons, Prod.mk.injEq, Prod.mk.injEq]
    tauto

/-- A table made of transitions holds exactly these. -/
theorem mem_successors_ofTriples {ts : List (State × L × State)} {p q : State} {l : L} :
    q ∈ (ofTriples ts).successors p l ↔ (p, l, q) ∈ ts := by
  simp [ofTriples, mem_successors_addAll]

/-- The listed transitions are those that the successors show. -/
theorem mem_triples {t : EdgeTable L} {p q : State} {l : L} :
    (p, l, q) ∈ t.triples ↔ q ∈ t.successors p l := by
  simp only [triples, List.mem_flatMap, List.mem_map, Prod.mk.injEq, Prod.exists, Rows.mem_entries,
    Std.ExtTreeSet.mem_toList, successors]
  constructor
  · intro h
    obtain ⟨p', l', targets, hget, q', hq, rfl, rfl, rfl⟩ := h
    simpa [hget] using hq
  · intro h
    cases hget : t.rows.get? p l with
    | none => simp [hget] at h
    | some targets => exact ⟨p, l, targets, hget, q, by simpa [hget] using h, rfl, rfl, rfl⟩

omit [Std.LawfulEqOrd L] in
/-- The transitions are listed in ascending order of sources, labels and targets. -/
theorem ordered_triples (t : EdgeTable L) : t.triples.Pairwise fun x y =>
    compare x.1 y.1 = .lt ∨ (x.1 = y.1 ∧ (compare x.2.1 y.2.1 = .lt ∨
      (x.2.1 = y.2.1 ∧ compare x.2.2 y.2.2 = .lt))) := by
  apply List.pairwise_flatMap.mpr
  constructor
  · intro entry _
    rw [List.pairwise_map]
    exact Std.ExtTreeSet.ordered_toList.imp fun hlt => .inr ⟨rfl, .inr ⟨rfl, hlt⟩⟩
  · refine t.rows.ordered_entries.imp fun hbefore x hx y hy => ?_
    obtain ⟨_, _, rfl⟩ := List.mem_map.mp hx
    obtain ⟨_, _, rfl⟩ := List.mem_map.mp hy
    exact hbefore.imp_right fun ⟨hsource, hlt⟩ => ⟨hsource, .inl hlt⟩

omit [Std.LawfulEqOrd L] in
/-- No transition is listed twice. -/
theorem nodup_triples (t : EdgeTable L) : t.triples.Nodup := by
  refine t.ordered_triples.imp fun hbefore heq => ?_
  subst heq
  simp at hbefore

/-- Restricting keeps the transitions with both ends kept. -/
theorem mem_successors_restrict {t : EdgeTable L} {keep : State → Bool} {p q : State} {l : L} :
    q ∈ (t.restrict keep).successors p l ↔ q ∈ t.successors p l ∧ keep p ∧ keep q := by
  simp [restrict, mem_successors_ofTriples, mem_triples]

end EdgeTable

/-- A table without empty moves lists its transitions as edges over symbols. -/
theorem NondeterministicTable.mem_edges {t : NondeterministicTable} {p q : State} {l : Label} :
    ⟨p, l, q⟩ ∈ TransitionTable.edges t ↔ ∃ a, l = .symbol a ∧ q ∈ t.successors p a := by
  simp only [TransitionTable.edges, mem_map_symbol, EdgeTable.mem_triples]

/-- A transition that is added to a table without empty moves reads a symbol. -/
theorem NondeterministicTable.of_insert_eq_ok {t u : NondeterministicTable} {e : Edge}
    (h : TransitionTable.insert t e = .ok u) :
    ∃ a, e.label = .symbol a ∧ u = t.add e.source a e.target := by
  simp only [TransitionTable.insert] at h
  split at h
  · contradiction
  · rename_i a hlabel
    exact ⟨a, hlabel, (Except.ok.inj h).symm⟩

/-- The transitions that a table with empty moves lists are those to its successors. -/
theorem EpsilonTable.mem_edges {t : EpsilonTable} {p q : State} {l : Label} :
    ⟨p, l, q⟩ ∈ TransitionTable.edges t ↔ q ∈ t.successors p l := by
  simp [TransitionTable.edges, EdgeTable.mem_triples]

end RegularLanguages
