import RegularLanguages.Automaton.Storage
import RegularLanguages.Proofs.Canonical
import RegularLanguages.Proofs.Quotient

/-!
# Other names for states

A renaming that gives different states different names takes every row of a table to the row of the
new name. If the classes of a deterministic automaton are single states, then merging only gives
the states other names.
-/

namespace RegularLanguages

namespace Rows

variable {L V : Type} [Ord L] {r : Rows L V} {f : State → State} {g : V → V}

/-- The rows under new names are the rows of the sources, with `g` of their entries. -/
theorem getElem?_renamed (hf : Function.Injective f) {n : State} {row' : Std.ExtTreeMap L V} :
    (r.renamed f g).rows[n]? = some row' ↔ ∃ (q : State) (row : Std.ExtTreeMap L V),
      r.rows[q]? = some row ∧ f q = n ∧ row.map (fun _ v => g v) = row' := by
  have hmem (n : State) (row' : Std.ExtTreeMap L V) :
      (n, row') ∈ (r.rows.toList.map fun e => (f e.1, e.2.map fun _ v => g v)) ↔
        ∃ (q : State) (row : Std.ExtTreeMap L V),
          r.rows[q]? = some row ∧ f q = n ∧ row.map (fun _ v => g v) = row' := by
    simp only [List.mem_map, Prod.exists, Prod.mk.injEq,
      Std.ExtTreeMap.mem_toList_iff_getElem?_eq_some]
  refine (getElem?_ofList_eq_some_iff ?_).trans (hmem n row')
  intro n row row' h h'
  obtain ⟨q, s, hs, rfl, rfl⟩ := (hmem _ _).mp h
  obtain ⟨q', s', hs', hname, rfl⟩ := (hmem _ _).mp h'
  obtain rfl := hf hname
  rw [hs, Option.some.injEq] at hs'
  rw [hs']

variable [Std.TransOrd L] [Std.LawfulEqOrd L]

/-- Under the new name of a source, a label leads to `g` of what it led to from the source. -/
theorem get?_renamed (hf : Function.Injective f) {n : State} {l : L} {w : V} :
    (r.renamed f g).get? n l = some w ↔
      ∃ p v, r.get? p l = some v ∧ f p = n ∧ g v = w := by
  simp only [get?_eq_some_iff, getElem?_renamed hf]
  constructor
  · intro h
    obtain ⟨_, ⟨p, row, hrow, rfl, rfl⟩, hw⟩ := h
    rw [Std.ExtTreeMap.getElem?_map, Option.map_eq_some_iff] at hw
    obtain ⟨v, hv, rfl⟩ := hw
    exact ⟨p, v, ⟨row, hrow, hv⟩, rfl, rfl⟩
  · intro h
    obtain ⟨p, v, ⟨row, hrow, hv⟩, rfl, rfl⟩ := h
    exact ⟨_, ⟨p, row, hrow, rfl, rfl⟩, by rw [Std.ExtTreeMap.getElem?_map, hv, Option.map_some]⟩

/-- Renaming makes no row empty. -/
theorem NoEmptyRow.renamed (hr : r.NoEmptyRow) (hf : Function.Injective f) :
    (r.renamed f g).NoEmptyRow := by
  intro n row' hrow'
  obtain ⟨q, row, hrow, -, rfl⟩ := (getElem?_renamed hf).mp hrow'
  obtain ⟨l, v, hv⟩ := exists_getElem?_of_ne_empty (hr q row hrow)
  intro hempty
  have hmissing : (row.map fun _ v => g v)[l]? = none := by
    rw [hempty, Std.ExtTreeMap.getElem?_empty]
  rw [Std.ExtTreeMap.getElem?_map, hv] at hmissing
  contradiction

end Rows

namespace DeterministicTable

variable {t : DeterministicTable} {f : State → State}

/-- The transitions of a renamed table are those between the new names. -/
theorem successor?_rename (hf : Function.Injective f) {m n : State} {a : Symbol} :
    (t.rename f).successor? m a = some n ↔
      ∃ p q, t.successor? p a = some q ∧ f p = m ∧ f q = n := Rows.get?_renamed hf

/-- Renaming makes no row empty. -/
theorem Canonical.rename (ht : t.Canonical) (hf : Function.Injective f) :
    (t.rename f).Canonical := Rows.NoEmptyRow.renamed ht hf

end DeterministicTable

namespace DFA

variable {D M : DFA} {f g : State → State}

/-- Only what a map gives for the states matters. -/
theorem Merges.congr (h : Merges D M f) (hD : D.WellFormed) (hfg : ∀ q ∈ D.states, f q = g q) :
    Merges D M g where
  alphabet_eq := h.alphabet_eq
  initial_eq := by rw [h.initial_eq, hfg D.initial hD.initial_mem]
  mem_states r := by
    rw [h.mem_states]
    exact exists_congr fun q => and_congr_right fun hq => by rw [hfg q hq]
  mem_finals q hq := by rw [← hfg q hq, h.mem_finals q hq]
  successor q hq a := by
    rw [← hfg q hq, h.successor q hq]
    exact Option.map_congr fun r hr => hfg r (successor_mem hD hr)

/-- An automaton that a map merges into another one, where no two states are merged, is only
renamed. -/
theorem Merges.eq_rename (h : Merges D M f) (hf : Function.Injective f) (hD : D.WellFormed)
    (hM : M.WellFormed) (hcanonicalD : D.transitions.Canonical)
    (hcanonicalM : M.transitions.Canonical) : M = Automaton.rename D f := by
  have hstates : M.states = StateSet.image f D.states := by
    apply Std.ExtTreeSet.ext_mem
    intro r
    rw [h.mem_states, StateSet.mem_image]
  have hfinals : M.finals = StateSet.image f D.finals := by
    apply Std.ExtTreeSet.ext_mem
    intro r
    rw [StateSet.mem_image]
    constructor
    · intro hr
      obtain ⟨q, hq, rfl⟩ := (h.mem_states r).mp (hM.finals_subset r hr)
      exact ⟨q, (h.mem_finals q hq).mp hr, rfl⟩
    · intro hr
      obtain ⟨q, hq, rfl⟩ := hr
      exact (h.mem_finals q (hD.finals_subset q hq)).mpr hq
  have htransitions : M.transitions = D.transitions.rename f := by
    refine hcanonicalM.eq_of_successor?_eq (hcanonicalD.rename hf) fun m a => Option.ext fun n => ?_
    rw [DeterministicTable.successor?_rename hf]
    constructor
    · intro hn
      obtain ⟨p, hp, rfl⟩ := (h.mem_states m).mp (source_mem hM hn)
      have himage := h.successor p hp a
      rw [show M.successor? (f p) a = some n from hn, eq_comm, Option.map_eq_some_iff] at himage
      obtain ⟨q, hq, rfl⟩ := himage
      exact ⟨p, q, hq, rfl, rfl⟩
    · intro hn
      obtain ⟨p, q, hq, rfl, rfl⟩ := hn
      refine (h.successor p (source_mem hD hq) a).trans ?_
      rw [show D.successor? p a = some q from hq, Option.map_some]
  have halphabet := h.alphabet_eq
  have hinitial := h.initial_eq
  cases M
  simp_all [Automaton.rename, TransitionTable.rename]

end DFA

end RegularLanguages
