import RegularLanguages.Proofs.EdgeLists
import RegularLanguages.Proofs.Renaming
import RegularLanguages.Proofs.Unions
import RegularLanguages.Proofs.Violations

/-!
# Tables as sets of transitions

However a table came about, it stands for the set of the transitions that can be looked up in it,
and it lists each of them once. A transition that is refused leaves no trace: if it is one too many
for its source and symbol, then the row in which it was looked up had been there before. A table
that is not deterministic has no empty row, so renaming its rows one by one stores the same as
adding the renamed transitions one by one. A deterministic table can have empty rows, in which there
is nothing to list.
-/

namespace RegularLanguages

namespace Rows

variable {L V : Type} [Ord L] {r : Rows L V} {p q : State} {l : L} {v : V}

/-- The row of the source is what it was, or empty if there was none. -/
theorem getElem?_withRow :
    (r.withRow q).rows[p]? = if p = q then some (r.rows.getD q ∅) else r.rows[p]? := by
  simp only [withRow, Std.ExtTreeMap.getElem?_insertIfNew, Std.compare_eq_iff_eq,
    Std.ExtTreeMap.getD_eq_getD_getElem?, Std.ExtTreeMap.mem_iff_isSome_getElem?]
  by_cases hp : p = q
  · subst hp
    cases r.rows[p]? <;> simp
  · have hqp : q ≠ p := fun h => hp h.symm
    simp [hp, hqp]

variable [Std.TransOrd L]

/-- An empty row has no entries. -/
@[simp] theorem get?_withRow : (r.withRow q).get? p l = r.get? p l := by
  rw [get?, get?, getElem?_withRow, Std.ExtTreeMap.getD_eq_getD_getElem?]
  by_cases hp : p = q
  · subst hp
    cases r.rows[p]? <;> simp
  · rw [if_neg hp]

/-- A source with an entry has a row already. -/
theorem withRow_eq_self (h : r.get? q l = some v) : r.withRow q = r := by
  obtain ⟨row, hrow, -⟩ := get?_eq_some_iff.mp h
  have hrows : (r.withRow q).rows = r.rows := by
    apply Std.ExtTreeMap.ext_getElem?
    intro p
    rw [getElem?_withRow, Std.ExtTreeMap.getD_eq_getD_getElem?, hrow, Option.getD_some]
    split
    · subst p
      exact hrow.symm
    · rfl
  exact congrArg mk hrows

/-- Setting an entry makes the row of its source if there is none. -/
@[simp] theorem set_withRow : (r.withRow q).set q l v = r.set q l v := by
  have hrow : (r.withRow q).rows.getD q ∅ = r.rows.getD q ∅ := by
    rw [Std.ExtTreeMap.getD_eq_getD_getElem?, getElem?_withRow, if_pos rfl, Option.getD_some]
  have hrows : (r.withRow q).rows.insert q ((r.rows.getD q ∅).insert l v) =
      r.rows.insert q ((r.rows.getD q ∅).insert l v) := by
    apply Std.ExtTreeMap.ext_getElem?
    intro p
    rw [Std.ExtTreeMap.getElem?_insert, Std.ExtTreeMap.getElem?_insert, getElem?_withRow]
    split
    · rfl
    · rename_i hne
      rw [if_neg fun h => hne (Std.compare_eq_iff_eq.mpr h.symm)]
  rw [set, hrow, hrows, set]

end Rows

/-- The same transition between renamed states. -/
def Edge.renamed (e : Edge) (f : State → State) : Edge := ⟨f e.source, e.label, f e.target⟩

/-- What the outcome of an insertion comes to in storage: there is another table, or the one that
was there. -/
def inStorage {T : Type} (t : T) : Except InvalidReason T → Except InvalidReason Unit × T
  | .ok u => (.ok (), u)
  | .error reason => (.error reason, t)

/-- What an insertion comes to in storage commutes with functions of tables, so it carries over to
tables of any kind. -/
theorem map_inStorage {T U : Type} {t : T} {outcome : Except InvalidReason T} (f : T → U) :
    (inStorage t outcome).map id f = inStorage (f t) (outcome.map f) := by
  cases outcome <;> rfl

/-- A deterministic table changes in storage as insertion says. -/
theorem DeterministicTable.enter_eq (t : DeterministicTable) (e : Edge) :
    t.enter e = inStorage t (t.insert e) := by
  unfold enter insert Edge.symbolRead
  cases e.label with
  | epsilon => rfl
  | symbol a =>
    -- The row that may have been made holds nothing, and putting the transition makes it anyway.
    have hsuccessor (q : State) :
        successor? ⟨t.rows.withRow e.source⟩ q a = t.successor? q a := Rows.get?_withRow
    have hput : put ⟨t.rows.withRow e.source⟩ e.source a e.target = t.put e.source a e.target :=
      congrArg mk Rows.set_withRow
    simp only [hsuccessor, hput]
    cases hq : t.successor? e.source a with
    | none => rfl
    | some q =>
      by_cases htarget : q = e.target
      · simp only [htarget, if_true, inStorage]
      · -- The symbol leads elsewhere, so it was looked up in a row that had been there.
        have hrow : t.rows.withRow e.source = t.rows := Rows.withRow_eq_self hq
        simp only [htarget, if_false, hrow, inStorage]

/-- A table without empty moves changes in storage as insertion says. -/
theorem NondeterministicTable.enter_eq (t : NondeterministicTable) (e : Edge) :
    t.enter e = inStorage t (TransitionTable.insert t e) := by
  simp only [enter, Edge.symbolRead, TransitionTable.insert]
  cases e.label <;> rfl

namespace EdgeTable

variable {L : Type} [Ord L] [Std.TransOrd L] {t : EdgeTable L} {f : State → State} {p q : State}
  {l : L}

/-- The successors under a label are the members of the set of targets that is kept there, if there
is one. -/
theorem mem_successors_iff :
    q ∈ t.successors p l ↔ ∃ targets, t.rows.get? p l = some targets ∧ q ∈ targets := by
  rw [successors]
  cases t.rows.get? p l <;> simp

variable [Std.LawfulEqOrd L]

/-- Renaming row by row takes the ends of transitions to their new names. -/
theorem mem_successors_renameRows (hf : Function.Injective f) :
    q ∈ (t.renameRows f).successors p l ↔
      ∃ p' q', q' ∈ t.successors p' l ∧ f p' = p ∧ f q' = q := by
  simp only [mem_successors_iff, renameRows, Rows.get?_renamed hf]
  constructor
  · intro h
    obtain ⟨_, ⟨p', targets, htargets, hp, rfl⟩, hq⟩ := h
    obtain ⟨q', hq', rfl⟩ := StateSet.mem_image.mp hq
    exact ⟨p', q', ⟨targets, htargets, hq'⟩, hp, rfl⟩
  · intro h
    obtain ⟨p', q', ⟨targets, htargets, hq'⟩, hp, hq⟩ := h
    exact ⟨_, ⟨p', targets, htargets, hp, rfl⟩, StateSet.mem_image.mpr ⟨q', hq', hq⟩⟩

/-- Renaming row by row makes no part of a table empty. -/
theorem Canonical.renameRows (ht : t.Canonical) (hf : Function.Injective f) :
    (t.renameRows f).Canonical where
  noEmptyRow := ht.noEmptyRow.renamed hf
  targets_ne_empty p l targets h := by
    obtain ⟨p', targets', htargets, -, rfl⟩ := (Rows.get?_renamed hf).mp h
    obtain ⟨q, hq⟩ := StateSet.ne_empty_iff.mp (ht.targets_ne_empty p' l targets' htargets)
    exact StateSet.ne_empty_iff.mpr ⟨f q, StateSet.mem_image.mpr ⟨q, hq, rfl⟩⟩

/-- Without empty parts, it is the same to rename row by row and to add the renamed transitions one
by one. -/
theorem Canonical.renameRows_eq (ht : t.Canonical) (hf : Function.Injective f) :
    t.renameRows f = t.rename f := by
  refine (ht.renameRows hf).eq_of_successors_eq (canonical_ofTriples _) fun p l => ?_
  apply Std.ExtTreeSet.ext_mem
  intro q
  exact (mem_successors_renameRows hf).trans mem_successors_rename.symm

end EdgeTable

/-! ## Insertions -/

/-- Why a table of some kind cannot have a transition together with the given ones. -/
inductive Excludes (kind : Kind) (es : List Edge) (e : Edge) : InvalidReason → Prop
  | unexpectedEpsilon (hempty : e.label = .epsilon) (h : kind ≠ .epsilonNFA) :
      Excludes kind es e (.unexpectedEpsilon e.source)
  | nondeterministic {a : Symbol} {q : State} (ha : e.label = .symbol a)
      (hq : ⟨e.source, .symbol a, q⟩ ∈ es) (hne : q ≠ e.target) (h : kind = .dfa) :
      Excludes kind es e (.nondeterministic e.source a)

/-- There is at most one reason. -/
theorem Excludes.unique {kind : Kind} {es : List Edge} {e : Edge} {reason reason' : InvalidReason}
    (h : Excludes kind es e reason) (h' : Excludes kind es e reason') : reason = reason' := by
  cases h <;> cases h' <;> simp_all

/-- A transition is refused exactly if no table of the kind has it together with those that are
there. -/
theorem insert_eq_error_iff {T : Type} [TransitionTable T] [LawfulTransitionTable T]
    [ExactTransitionTable T] [ReportingTransitionTable T] {t : T} {e : Edge}
    {reason : InvalidReason} : TransitionTable.insert t e = .error reason ↔
      Excludes (TransitionTable.kind T) (TransitionTable.edges t) e reason := by
  have hreason {reason : InvalidReason} (h : TransitionTable.insert t e = .error reason) :
      Excludes (TransitionTable.kind T) (TransitionTable.edges t) e reason := by
    rcases ReportingTransitionTable.of_insert_eq_error h with
      ⟨rfl, hempty, hkind⟩ | ⟨a, q, rfl, ha, hne, hq, hkind⟩
    · exact .unexpectedEpsilon hempty hkind
    · exact .nondeterministic ha hq hne hkind
  refine ⟨hreason, fun h => ?_⟩
  cases hinsert : TransitionTable.insert t e with
  | error reason' => rw [h.unique (hreason hinsert)]
  | ok u =>
    have hedges := LawfulTransitionTable.mem_edges_insert hinsert
    have he : e ∈ TransitionTable.edges u := (hedges e).mpr (.inl rfl)
    cases h with
    | unexpectedEpsilon hempty hkind =>
      exact absurd hempty (ReportingTransitionTable.label_ne_epsilon hkind he)
    | nondeterministic ha hq hne hkind =>
      rw [← ha] at hq
      exact absurd (ExactTransitionTable.target_unique hkind ((hedges _).mpr (.inr hq)) he) hne

namespace AnyTable

variable {t u : AnyTable} {e e' : Edge} {f : State → State} {keep : State → Bool}
  {reason : InvalidReason}

/-- A table changes in storage as insertion says. -/
theorem enter_eq (t : AnyTable) (e : Edge) : t.enter e = inStorage t (t.insert e) := by
  cases t with
  | dfa t => exact (congrArg (Prod.map id dfa) (t.enter_eq e)).trans (map_inStorage dfa)
  | nfa t => exact (congrArg (Prod.map id nfa) (t.enter_eq e)).trans (map_inStorage nfa)
  | epsilonNFA t => rfl

/-- An added transition is there besides those that were there. -/
theorem mem_edges_of_insert (h : t.insert e = .ok u) : e' ∈ u.edges ↔ e' = e ∨ e' ∈ t.edges := by
  cases t with
  | dfa t | nfa t | epsilonNFA t =>
    rw [insert] at h
    obtain ⟨u, hu, rfl⟩ := exists_of_map_eq_ok h
    exact LawfulTransitionTable.mem_edges_insert hu e'

/-- A transition is refused exactly if the table cannot have it together with those it has. -/
theorem insert_eq_error_iff_excludes :
    t.insert e = .error reason ↔ Excludes t.kind t.edges e reason := by
  cases t with
  | dfa t | nfa t | epsilonNFA t =>
    rw [insert, map_eq_error_iff]
    exact insert_eq_error_iff

/-! ## Edges -/

/-- The transitions are listed strictly ascending by source, label and target. -/
theorem ordered_edges (t : AnyTable) : t.edges.Pairwise fun e e' => compare e e' = .lt := by
  cases t <;> exact OrderedTransitionTable.ordered_edges _

/-- The transitions that are listed are those that can be looked up. -/
theorem mem_edges_iff_mem_targets :
    e ∈ t.edges ↔ e.target ∈ t.targets e.source e.label := by
  obtain ⟨p, l, q⟩ := e
  cases t with
  | dfa t => cases l <;> simp [edges, targets, DeterministicTable.mem_edges]
  | nfa t => cases l <;> simp [edges, targets, NondeterministicTable.mem_edges]
  | epsilonNFA t => simp [edges, targets, EpsilonTable.mem_edges]

/-- Restricting keeps the transitions with both ends kept. -/
theorem mem_edges_restrict :
    e ∈ (t.restrict keep).edges ↔ e ∈ t.edges ∧ keep e.source = true ∧ keep e.target = true := by
  cases t <;> exact LawfulTransitionTable.mem_edges_restrict _ _ _ _ _

/-- Under the new name of a state, a label leads to the new names of its targets. -/
theorem mem_targets_rename (hf : Function.Injective f) {p q : State} {l : Label} :
    q ∈ (t.rename f).targets p l ↔ ∃ p' q', q' ∈ t.targets p' l ∧ f p' = p ∧ f q' = q := by
  cases t with
  | dfa t =>
    cases l with
    | epsilon => simp [rename, targets]
    | symbol a =>
      simp only [rename, targets, Option.mem_toList]
      exact DeterministicTable.successor?_rename hf
  | nfa t =>
    cases l with
    | epsilon => simp [rename, targets]
    | symbol a =>
      simp only [rename, targets, Std.ExtTreeSet.mem_toList]
      exact EdgeTable.mem_successors_rename
  | epsilonNFA t =>
    simp only [rename, targets, Std.ExtTreeSet.mem_toList]
    exact EdgeTable.mem_successors_rename

/-- Renaming takes the transitions to those between the new names. -/
theorem mem_edges_rename (hf : Function.Injective f) :
    e ∈ (t.rename f).edges ↔ ∃ e' ∈ t.edges, e'.renamed f = e := by
  simp only [mem_edges_iff_mem_targets, mem_targets_rename hf]
  constructor
  · intro h
    obtain ⟨p, q, hq, hsource, htarget⟩ := h
    exact ⟨⟨p, e.label, q⟩, hq, by rw [Edge.renamed, hsource, htarget]⟩
  · intro h
    obtain ⟨e', he', rfl⟩ := h
    exact ⟨e'.source, e'.target, he', rfl, rfl⟩

/-! ## Tables that can be made -/

/-- The tables that can be made of an empty one, where a transition may also have been refused. -/
inductive Reached : AnyTable → Prop
  | empty (kind : Kind) : Reached (empty kind)
  | enter {t : AnyTable} (ht : Reached t) (e : Edge) : Reached (t.enter e).2
  | restrict {t : AnyTable} (ht : Reached t) (keep : State → Bool) : Reached (t.restrict keep)
  | renameRows {t : AnyTable} (ht : Reached t) {f : State → State} (hf : Function.Injective f) :
      Reached (t.renameRows f)

/-- No row and no set of targets is empty, unless the table is deterministic. -/
def Filled : AnyTable → Prop
  | dfa _ => True
  | nfa t => t.Canonical
  | epsilonNFA t => t.Canonical

/-- An empty table of any kind has nothing that could be empty. -/
theorem filled_empty (kind : Kind) : (empty kind).Filled := by
  cases kind with
  | dfa => trivial
  | nfa | epsilonNFA => exact EdgeTable.canonical_empty

namespace Filled

/-- Inserting a transition leaves no part of a table empty, if it succeeds. -/
theorem insert (ht : t.Filled) (h : t.insert e = .ok u) : u.Filled := by
  cases t with
  | dfa t =>
    obtain ⟨u, -, rfl⟩ := exists_of_map_eq_ok h
    trivial
  | nfa t | epsilonNFA t =>
    rw [AnyTable.insert] at h
    obtain ⟨u, hu, rfl⟩ := exists_of_map_eq_ok h
    exact CanonicalTable.canonical_insert ht hu

/-- Entering a transition leaves no part of a table empty, also if it is refused. -/
theorem enter (ht : t.Filled) (e : Edge) : (t.enter e).2.Filled := by
  rw [enter_eq]
  cases h : t.insert e with
  | ok u => exact ht.insert h
  | error reason => exact ht

/-- Restricting a table makes it anew from the transitions that are left, so no part of it is
empty. -/
theorem restrict (t : AnyTable) (keep : State → Bool) : (t.restrict keep).Filled := by
  cases t with
  | dfa t => trivial
  | nfa t | epsilonNFA t => exact EdgeTable.canonical_ofTriples _

/-- Renaming states by an injective function leaves no part of a table empty. -/
theorem renameRows (ht : t.Filled) (hf : Function.Injective f) : (t.renameRows f).Filled := by
  cases t with
  | dfa t => trivial
  | nfa t | epsilonNFA t => exact EdgeTable.Canonical.renameRows ht hf

/-- Renaming row by row and adding the renamed transitions make the same table. -/
theorem renameRows_eq (ht : t.Filled) (hf : Function.Injective f) :
    t.renameRows f = t.rename f := by
  cases t with
  | dfa t => rfl
  | nfa t => exact congrArg nfa (EdgeTable.Canonical.renameRows_eq ht hf)
  | epsilonNFA t => exact congrArg epsilonNFA (EdgeTable.Canonical.renameRows_eq ht hf)

end Filled

/-- Whatever is done to tables, only a deterministic one gets empty rows. -/
theorem Reached.filled (ht : t.Reached) : t.Filled := by
  induction ht with
  | empty kind => exact filled_empty kind
  | enter _ e ih => exact ih.enter e
  | restrict _ keep => exact .restrict _ keep
  | renameRows _ hf ih => exact ih.renameRows hf

/-- However a table came about, it lists the transitions that can be looked up in it, each once and
in strictly ascending order. If a transition is taken, it is added to those that are there. It is
refused exactly if the table cannot have it together with those, and then the table stays as it is.
Restricting keeps the transitions with both ends kept, and renaming the states injectively takes
every transition to the one between the new names. -/
theorem tables_are_sets_of_transitions (ht : t.Reached) :
    (t.edges.Pairwise (fun e e' => compare e e' = .lt) ∧ t.edges.Nodup ∧
      ∀ e, e ∈ t.edges ↔ e.target ∈ t.targets e.source e.label) ∧
    (∀ e u, t.insert e = .ok u →
      t.enter e = (.ok (), u) ∧ ∀ e', e' ∈ u.edges ↔ e' = e ∨ e' ∈ t.edges) ∧
    (∀ e reason, t.insert e = .error reason ↔ Excludes t.kind t.edges e reason) ∧
    (∀ e reason, t.insert e = .error reason → t.enter e = (.error reason, t)) ∧
    (∀ (keep : State → Bool) e, e ∈ (t.restrict keep).edges ↔
      e ∈ t.edges ∧ keep e.source = true ∧ keep e.target = true) ∧
    (∀ f : State → State, Function.Injective f → t.renameRows f = t.rename f ∧
      ∀ e, e ∈ (t.rename f).edges ↔ ∃ e' ∈ t.edges, e'.renamed f = e) := by
  have hordered := t.ordered_edges
  refine ⟨⟨hordered, FiniteSet.nodup_of_ordered hordered, fun e => mem_edges_iff_mem_targets⟩,
    fun e u h => ?_, fun e reason => insert_eq_error_iff_excludes, fun e reason h => ?_,
    fun keep e => mem_edges_restrict, fun f hf => ?_⟩
  · exact ⟨by rw [enter_eq, h, inStorage], fun e' => mem_edges_of_insert h⟩
  · rw [enter_eq, h, inStorage]
  · exact ⟨ht.filled.renameRows_eq hf, fun e => mem_edges_rename hf⟩

/-- When `s` is left out, the row of `r` stays behind as an empty one. The table still has a single
transition, and refuses a second target for it. -/
theorem tables_are_sets_of_transitions_beside_empty_row :
    let single : AnyTable := ((empty .dfa).enter ⟨"p", .symbol 'a', "q"⟩).2
    let t : AnyTable := (single.enter ⟨"r", .symbol 'a', "s"⟩).2.restrict (· ≠ "s")
    let f : State → State := fun q => "x" ++ q
    t.Reached ∧ f.Injective ∧ t ≠ single ∧ t.edges = single.edges ∧
      t.enter ⟨"p", .symbol 'a', "r"⟩ = (.error (.nondeterministic "p" 'a'), t) ∧
      ∀ e, e ∈ (t.renameRows f).edges ↔ e = ⟨"xp", .symbol 'a', "xq"⟩ := by
  intro single t f
  have ht : t.Reached := (((Reached.empty .dfa).enter _).enter _).restrict _
  have hf : f.Injective := State.append_injective "x"
  have hedges : t.edges = [⟨"p", .symbol 'a', "q"⟩] := by decide +kernel
  obtain ⟨-, -, hrefused, hkept, -, hrenamed⟩ := tables_are_sets_of_transitions ht
  obtain ⟨hrows, hnames⟩ := hrenamed f hf
  refine ⟨ht, hf, by decide +kernel, by decide +kernel, hkept _ _ ((hrefused _ _).mpr ?_),
    fun e => ?_⟩
  · exact .nondeterministic (q := "q") rfl (by simp [hedges]) (by decide) (by decide +kernel)
  · rw [hrows, hnames, hedges]
    simp [Edge.renamed, f, eq_comm]

end AnyTable

end RegularLanguages
