import RegularLanguages.Proofs.WellFormed

/-!
# Tables without empty parts

A table that has no empty row and no empty set of targets is determined by its transitions: there
is only one way to store them. All operations on tables make such tables of such tables, and
restricting does so if no transition leads out of what is kept. Equality of automata is then
equality of their parts.
-/

namespace RegularLanguages

namespace Rows

variable {L V : Type} [Ord L] [Std.TransOrd L]

/-- No row is empty. -/
def NoEmptyRow (r : Rows L V) : Prop :=
  ∀ (q : State) (row : Std.ExtTreeMap L V), r.rows[q]? = some row → row ≠ ∅

omit [Std.TransOrd L] in
/-- A table without rows has no empty row. -/
theorem noEmptyRow_empty : (empty : Rows L V).NoEmptyRow := by
  intro q row h
  simp [empty] at h

/-- The row in which an entry is set is not empty. -/
theorem NoEmptyRow.set {r : Rows L V} (h : r.NoEmptyRow) (p : State) (l : L) (v : V) :
    (r.set p l v).NoEmptyRow := by
  intro q row hrow
  rw [Rows.set, Std.ExtTreeMap.getElem?_insert] at hrow
  split at hrow
  · obtain rfl := Option.some.inj hrow
    exact Std.ExtTreeMap.insert_ne_empty
  · exact h q row hrow

variable [Std.LawfulEqOrd L]

/-- A row that is not empty has an entry. -/
theorem exists_getElem?_of_ne_empty {row : Std.ExtTreeMap L V} (h : row ≠ ∅) :
    ∃ (l : L) (v : V), row[l]? = some v := by
  by_contra hnone
  apply h
  apply Std.ExtTreeMap.ext_getElem?
  intro l
  rw [Std.ExtTreeMap.getElem?_empty]
  by_contra hsome
  obtain ⟨v, hv⟩ := Option.ne_none_iff_exists'.mp hsome
  exact hnone ⟨l, v, hv⟩

/-- Of two tables with the same entries, one has all rows of the other unless these are empty. -/
theorem NoEmptyRow.isSome_of_get?_eq {r s : Rows L V} (hr : r.NoEmptyRow)
    (h : ∀ q l, r.get? q l = s.get? q l) {q : State} {row : Std.ExtTreeMap L V}
    (hrow : r.rows[q]? = some row) : ∃ row', s.rows[q]? = some row' := by
  obtain ⟨l, v, hv⟩ := exists_getElem?_of_ne_empty (hr q row hrow)
  have hget := h q l
  rw [get?_of_getElem? hrow, hv] at hget
  cases hs : s.rows[q]? with
  | none => simp [get?, hs] at hget
  | some row' => exact ⟨row', rfl⟩

/-- Tables without empty rows are determined by their entries. -/
theorem NoEmptyRow.eq_of_get?_eq {r s : Rows L V} (hr : r.NoEmptyRow) (hs : s.NoEmptyRow)
    (h : ∀ q l, r.get? q l = s.get? q l) : r = s := by
  have hrows : r.rows = s.rows := by
    apply Std.ExtTreeMap.ext_getElem?
    intro q
    cases hrow : r.rows[q]? with
    | none =>
      by_contra hsome
      obtain ⟨row', hrow'⟩ := Option.ne_none_iff_exists'.mp (Ne.symm hsome)
      obtain ⟨row, hrow''⟩ := hs.isSome_of_get?_eq (fun q l => (h q l).symm) hrow'
      rw [hrow] at hrow''
      contradiction
    | some row =>
      obtain ⟨row', hrow'⟩ := hr.isSome_of_get?_eq h hrow
      rw [hrow']
      congr 1
      apply Std.ExtTreeMap.ext_getElem?
      intro l
      rw [← get?_of_getElem? hrow, ← get?_of_getElem? hrow', h]
  cases r
  cases s
  exact congrArg mk hrows

end Rows

namespace DeterministicTable

/-- No row is empty. -/
def Canonical (t : DeterministicTable) : Prop := t.rows.NoEmptyRow

/-- The empty table of a deterministic automaton is canonical. -/
theorem canonical_empty : Canonical ⟨.empty⟩ := Rows.noEmptyRow_empty

/-- Setting a successor keeps a table canonical, since the row it is set in is not empty then. -/
theorem Canonical.put {t : DeterministicTable} (h : t.Canonical) (p : State) (a : Symbol)
    (q : State) : (t.put p a q).Canonical := Rows.NoEmptyRow.set h p a q

/-- Setting several successors one after another keeps a table canonical. -/
theorem Canonical.putAll {t : DeterministicTable} (h : t.Canonical)
    (ts : List (State × Symbol × State)) : (t.putAll ts).Canonical := by
  induction ts generalizing t with
  | nil => exact h
  | cons x ts ih => exact ih (h.put x.1 x.2.1 x.2.2)

/-- A table that is made from a list of transitions is canonical. -/
theorem canonical_ofTriples (ts : List (State × Symbol × State)) : (ofTriples ts).Canonical :=
  canonical_empty.putAll ts

/-- Tables without empty rows are determined by their transitions. -/
theorem Canonical.eq_of_successor?_eq {t u : DeterministicTable} (ht : t.Canonical)
    (hu : u.Canonical) (h : ∀ p a, t.successor? p a = u.successor? p a) : t = u := by
  cases t
  cases u
  exact congrArg mk (Rows.NoEmptyRow.eq_of_get?_eq ht hu h)

/-- A row that is kept keeps its entries if no transition leads out of what is kept. -/
theorem Canonical.restrict {t : DeterministicTable} (h : t.Canonical) {keep : State → Bool}
    (hkeep : ∀ p a q, t.successor? p a = some q → keep p = true → keep q = true) :
    (t.restrict keep).Canonical := by
  intro p row hrow
  simp only [DeterministicTable.restrict, Std.ExtTreeMap.getElem?_filterMap'] at hrow
  obtain ⟨full, hfull, hfiltered⟩ := Option.bind_eq_some_iff.mp hrow
  split at hfiltered
  · rename_i hp
    obtain rfl := Option.some.inj hfiltered
    obtain ⟨a, q, hq⟩ := Rows.exists_getElem?_of_ne_empty (h p full hfull)
    have hsuccessor : t.successor? p a = some q := (Rows.get?_of_getElem? hfull a).trans hq
    intro hempty
    have hnone : (full.filter fun _ q => keep q)[a]? = none := by
      rw [hempty, Std.ExtTreeMap.getElem?_empty]
    rw [Std.ExtTreeMap.getElem?_filter', hq, Option.filter_some,
      if_pos (hkeep p a q hsuccessor hp)] at hnone
    contradiction
  · contradiction

end DeterministicTable

namespace EdgeTable

variable {L : Type} [Ord L] [Std.TransOrd L]

/-- No row and no set of targets is empty. -/
structure Canonical (t : EdgeTable L) : Prop where
  noEmptyRow : t.rows.NoEmptyRow
  targets_ne_empty : ∀ p l targets, t.rows.get? p l = some targets → targets ≠ ∅

/-- The empty table of an automaton with sets of successors is canonical. -/
theorem canonical_empty : (empty : EdgeTable L).Canonical where
  noEmptyRow := Rows.noEmptyRow_empty
  targets_ne_empty p l targets h := by simp [empty] at h

/-- What is stored is the set of successors, unless this is empty. -/
theorem Canonical.get?_eq {t : EdgeTable L} (h : t.Canonical) (p : State) (l : L) :
    t.rows.get? p l = if (t.successors p l).isEmpty then none else some (t.successors p l) := by
  cases hget : t.rows.get? p l with
  | none => simp [successors, hget]
  | some targets => simp [successors, hget, h.targets_ne_empty p l targets hget]

variable [Std.LawfulEqOrd L]

/-- Adding a successor keeps a table canonical: neither its row nor its set of targets is empty
then. -/
theorem Canonical.add {t : EdgeTable L} (h : t.Canonical) (p : State) (l : L) (q : State) :
    (t.add p l q).Canonical where
  noEmptyRow := h.noEmptyRow.set p l _
  targets_ne_empty p' l' targets htargets := by
    classical
    rw [EdgeTable.add, Rows.get?_set] at htargets
    split at htargets
    · obtain rfl := Option.some.inj htargets
      exact Std.ExtTreeSet.insert_ne_empty
    · exact h.targets_ne_empty p' l' targets htargets

/-- Adding several successors one after another keeps a table canonical. -/
theorem Canonical.addAll {t : EdgeTable L} (h : t.Canonical) (ts : List (State × L × State)) :
    (t.addAll ts).Canonical := by
  induction ts generalizing t with
  | nil => exact h
  | cons x ts ih => exact ih (h.add x.1 x.2.1 x.2.2)

/-- A table that is made from a list of transitions has no empty row and no empty set of targets. -/
theorem canonical_ofTriples (ts : List (State × L × State)) : (ofTriples ts).Canonical :=
  canonical_empty.addAll ts

/-- Tables without empty parts are determined by their transitions. -/
theorem Canonical.eq_of_successors_eq {t u : EdgeTable L} (ht : t.Canonical) (hu : u.Canonical)
    (h : ∀ p l, t.successors p l = u.successors p l) : t = u := by
  have hget (p : State) (l : L) : t.rows.get? p l = u.rows.get? p l := by
    rw [ht.get?_eq, hu.get?_eq, h]
  have hrows : t.rows = u.rows := ht.noEmptyRow.eq_of_get?_eq hu.noEmptyRow hget
  cases t
  cases u
  exact congrArg EdgeTable.mk hrows

end EdgeTable

/-- A kind of table of which some are determined by their transitions, among them all that can be
made by adding transitions and by restricting to sources that nothing leads out of. -/
class CanonicalTable (T : Type) [TransitionTable T] where
  Canonical : T → Prop
  eq_of_edges : ∀ {t u : T}, Canonical t → Canonical u →
    (∀ e, e ∈ TransitionTable.edges t ↔ e ∈ TransitionTable.edges u) → t = u
  canonical_empty : Canonical TransitionTable.empty
  canonical_insert : ∀ {t u : T} {e : Edge}, Canonical t → TransitionTable.insert t e = .ok u →
    Canonical u
  canonical_restrict : ∀ {t : T} {keep : State → Bool}, Canonical t →
    (∀ e ∈ TransitionTable.edges t, keep e.source = true → keep e.target = true) →
    Canonical (TransitionTable.restrict t keep)

instance : CanonicalTable DeterministicTable where
  Canonical := DeterministicTable.Canonical
  eq_of_edges {t u} ht hu h := by
    refine ht.eq_of_successor?_eq hu fun p a => Option.ext fun q => ?_
    have hedge := h ⟨p, .symbol a, q⟩
    simpa [DeterministicTable.mem_edges] using hedge
  canonical_empty := DeterministicTable.canonical_empty
  canonical_insert ht h := by
    obtain ⟨a, -, -, rfl⟩ := DeterministicTable.of_insert_eq_ok h
    exact ht.put _ _ _
  canonical_restrict ht h :=
    ht.restrict fun p a q hq => h ⟨p, .symbol a, q⟩ (DeterministicTable.mem_edges.mpr ⟨a, rfl, hq⟩)

instance : CanonicalTable NondeterministicTable where
  Canonical := EdgeTable.Canonical
  eq_of_edges {t u} ht hu h := by
    refine ht.eq_of_successors_eq hu fun p a => Std.ExtTreeSet.ext_mem fun q => ?_
    have hedge := h ⟨p, .symbol a, q⟩
    simpa [NondeterministicTable.mem_edges] using hedge
  canonical_empty := EdgeTable.canonical_empty
  canonical_insert ht h := by
    obtain ⟨a, -, rfl⟩ := NondeterministicTable.of_insert_eq_ok h
    exact ht.add _ _ _
  canonical_restrict _ _ := EdgeTable.canonical_ofTriples _

instance : CanonicalTable EpsilonTable where
  Canonical := EdgeTable.Canonical
  eq_of_edges {t u} ht hu h := by
    refine ht.eq_of_successors_eq hu fun p l => Std.ExtTreeSet.ext_mem fun q => ?_
    simpa [EpsilonTable.mem_edges] using h ⟨p, l, q⟩
  canonical_empty := EdgeTable.canonical_empty
  canonical_insert ht h := by
    obtain rfl := Except.ok.inj h
    exact ht.add _ _ _
  canonical_restrict _ _ := EdgeTable.canonical_ofTriples _

namespace Automaton

variable {T : Type} [TransitionTable T] [CanonicalTable T]

/-- The automaton is well-formed, and its table is the only one for its transitions. -/
structure Sound (A : Automaton T) : Prop extends A.WellFormed where
  canonical : CanonicalTable.Canonical A.transitions

namespace Sound

variable {A B : Automaton T}

/-- Sound automata are equal if their parts are. -/
theorem eq_of_parts_eq (hA : A.Sound) (hB : B.Sound) (hstates : A.states = B.states)
    (halphabet : A.alphabet = B.alphabet) (hedges : ∀ e, e ∈ A.edges ↔ e ∈ B.edges)
    (hinitial : A.initial = B.initial) (hfinals : A.finals = B.finals) : A = B := by
  have htransitions := CanonicalTable.eq_of_edges hA.canonical hB.canonical hedges
  cases A
  cases B
  simp_all

/-- Leaving out unreachable states keeps an automaton sound: no transition leads out of the
reachable ones. -/
theorem trimmed [LawfulTransitionTable T] (h : A.Sound) : A.trimmed.Sound where
  toWellFormed := h.toWellFormed.trimmed
  canonical := by
    rw [Automaton.trimmed]
    split
    · exact h.canonical
    · refine CanonicalTable.canonical_restrict h.canonical fun e he hsource => ?_
      rw [Std.ExtTreeSet.contains_iff_mem] at hsource ⊢
      exact mem_reachableStates_of_moves hsource he

/-- A larger alphabet keeps an automaton sound. -/
theorem extendAlphabet (h : A.Sound) (alphabet : Alphabet) : (A.extendAlphabet alphabet).Sound where
  toWellFormed := h.toWellFormed.extendAlphabet alphabet
  canonical := h.canonical

end Sound

/-! ## Checked parts -/

/-- None of the given states is undeclared exactly if all are states. -/
theorem undeclared?_eq_none_iff {states : StateSet} {mentioned : List State} :
    undeclared? states mentioned = none ↔ ∀ q ∈ mentioned, q ∈ states := by
  simp [undeclared?]

/-- A transition has no fault exactly if it leads between declared states, over a symbol of the
alphabet if it reads one. -/
theorem edgeFault?_eq_none_iff {states : StateSet} {alphabet : Alphabet} {e : Edge} :
    edgeFault? states alphabet e = none ↔
      e.source ∈ states ∧ e.target ∈ states ∧ ∀ a, e.label = .symbol a → a ∈ alphabet := by
  have hdeclared : undeclared? states [e.source, e.target] = none ↔
      e.source ∈ states ∧ e.target ∈ states := by
    simp [undeclared?_eq_none_iff]
  rw [edgeFault?, ← and_assoc, ← hdeclared]
  cases undeclared? states [e.source, e.target] with
  | some q => simp
  | none => cases e.label <;> simp

variable [LawfulTransitionTable T] {states : StateSet} {alphabet : Alphabet}

/-- If all transitions are added, then they are in the table besides those it had, and none has a
fault. -/
theorem of_insertAll_eq_ok {t u : T} {es : List Edge}
    (h : insertAll states alphabet t es = .ok u) (ht : CanonicalTable.Canonical t) :
    CanonicalTable.Canonical u ∧
      (∀ e, e ∈ TransitionTable.edges u ↔ e ∈ es ∨ e ∈ TransitionTable.edges t) ∧
      ∀ e ∈ es, edgeFault? states alphabet e = none := by
  induction es generalizing t with
  | nil =>
    obtain rfl := Except.ok.inj h
    exact ⟨ht, by simp, by simp⟩
  | cons e es ih =>
    rw [insertAll] at h
    split at h
    · contradiction
    · rename_i hfault
      split at h
      · contradiction
      · rename_i t' hinsert
        obtain ⟨hu, hedges, hfaults⟩ := ih h (CanonicalTable.canonical_insert ht hinsert)
        refine ⟨hu, fun e' => ?_, ?_⟩
        · rw [hedges, LawfulTransitionTable.mem_edges_insert hinsert, List.mem_cons, ← or_assoc,
            or_comm (a := e' ∈ es)]
        · intro e' he'
          rcases List.mem_cons.mp he' with rfl | he'
          · exact hfault
          · exact hfaults e' he'

omit [CanonicalTable T] [LawfulTransitionTable T] in
/-- The checks let parts through exactly if nothing is at fault. -/
theorem checked_eq_ok_iff {es : List Edge} {initial : State} {finals : List State}
    {A : Automaton T} : checked states alphabet es initial finals = .ok A ↔
      states.isEmpty = false ∧ epsilonSymbol ∉ alphabet ∧ initial ∈ states ∧
      (∀ q ∈ finals, q ∈ states) ∧
      ∃ table, insertAll states alphabet TransitionTable.empty es = .ok table ∧
        ⟨states, alphabet, table, initial, .ofList finals⟩ = A := by
  rw [checked, ← undeclared?_eq_none_iff]
  split_ifs with hempty hepsilon hinitial
  · simp [hempty]
  · simpa using fun _ h => (h (by simpa using hepsilon)).elim
  · simpa using fun _ _ h => absurd h (by simpa using hinitial)
  · have hnonempty : states.isEmpty = false := by simpa using hempty
    have habsent : epsilonSymbol ∉ alphabet := by simpa using hepsilon
    have hdeclared : initial ∈ states := by simpa using hinitial
    cases undeclared? states finals with
    | some q => simp
    | none =>
      cases insertAll states alphabet (TransitionTable.empty : T) es <;>
        simp [hnonempty, habsent, hdeclared]

/-- What the checks let through is sound. -/
theorem sound_of_checked {es : List Edge} {initial : State} {finals : List State} {A : Automaton T}
    (h : checked states alphabet es initial finals = .ok A) : A.Sound := by
  obtain ⟨-, -, hinitial, hfinals, u, hinsert, rfl⟩ := checked_eq_ok_iff.mp h
  obtain ⟨hcanonical, hedges, hfaults⟩ := of_insertAll_eq_ok hinsert CanonicalTable.canonical_empty
  have hmove {p q : State} {l : Label} (hmove : ⟨p, l, q⟩ ∈ TransitionTable.edges u) :
      edgeFault? states alphabet ⟨p, l, q⟩ = none :=
    hfaults _ (((hedges _).mp hmove).resolve_right (LawfulTransitionTable.notMem_edges_empty _))
  refine ⟨⟨hinitial, fun q hq => hfinals q (StateSet.mem_ofList.mp hq), ?_, ?_, ?_⟩, hcanonical⟩
  · exact fun p l q h => (edgeFault?_eq_none_iff.mp (hmove h)).1
  · exact fun p l q h => (edgeFault?_eq_none_iff.mp (hmove h)).2.1
  · exact fun p a q h => (edgeFault?_eq_none_iff.mp (hmove h)).2.2 a rfl

omit [CanonicalTable T] [LawfulTransitionTable T] in
/-- Given parts make what the checks make of the set of the states. -/
theorem ofParts_eq_ok_iff {states : List State} {es : List Edge} {initial : State}
    {finals : List State} {A : Automaton T} :
    ofParts states alphabet es initial finals = .ok A ↔
      checked (.ofList states) alphabet es initial finals = .ok A := by
  unfold ofParts
  split <;> simp [*]

/-- An automaton with given parts is sound. -/
theorem sound_of_ofParts {states : List State} {es : List Edge} {initial : State}
    {finals : List State} {A : Automaton T}
    (h : ofParts states alphabet es initial finals = .ok A) : A.Sound :=
  sound_of_checked (ofParts_eq_ok_iff.mp h)

end Automaton

end RegularLanguages
