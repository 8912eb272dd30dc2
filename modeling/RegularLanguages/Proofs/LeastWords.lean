import RegularLanguages.Proofs.Indistinguishable
import RegularLanguages.Proofs.WordOrder

/-!
# Least words

The search for an accepted word goes from layer to layer. A layer has the states at one distance
from the initial state, each with the least word that leads to it, and in the order of these words.
Where the words of a layer are extended by the symbols in ascending order, the extended words
ascend as well. So where a state occurs for the first time it has its least word, and the first
final state has the least word that is accepted.
-/

namespace RegularLanguages.DFA

variable {D : DFA}

/-! ## Layers -/

section FirstSeen

variable {seen : StateSet} {accesses : List Access} {q : State} {u w : Word}

/-- First occurrences stay in their order. -/
theorem firstSeen_sublist (seen : StateSet) (accesses : List Access) :
    (firstSeen seen accesses).Sublist accesses := by
  induction accesses generalizing seen with
  | nil => exact .refl []
  | cons access rest ih =>
    obtain ⟨p, v⟩ := access
    rw [firstSeen]
    split
    · exact (ih seen).cons _
    · exact (ih _).cons_cons _

/-- States that were seen before are left out. -/
theorem notMem_of_mem_firstSeen (h : (q, w) ∈ firstSeen seen accesses) : q ∉ seen := by
  induction accesses generalizing seen with
  | nil => simp [firstSeen] at h
  | cons access rest ih =>
    obtain ⟨p, v⟩ := access
    rw [firstSeen] at h
    split at h
    · exact ih h
    · rename_i hp
      rcases List.mem_cons.mp h with heq | hrest
      · obtain ⟨rfl, -⟩ := Prod.mk.inj heq
        rwa [Std.ExtTreeSet.contains_iff_mem] at hp
      · exact fun hq => ih hrest (FiniteSet.mem_insert.mpr (.inr hq))

/-- All other states have a first occurrence. -/
theorem exists_mem_firstSeen (h : (q, w) ∈ accesses) (hq : q ∉ seen) :
    ∃ u, (q, u) ∈ firstSeen seen accesses := by
  induction accesses generalizing seen with
  | nil => simp at h
  | cons access rest ih =>
    obtain ⟨p, v⟩ := access
    rw [firstSeen]
    split
    · rename_i hp
      rcases List.mem_cons.mp h with heq | hrest
      · obtain ⟨rfl, -⟩ := Prod.mk.inj heq
        exact absurd (Std.ExtTreeSet.contains_iff_mem.mp hp) hq
      · exact ih hrest hq
    · by_cases hqp : q = p
      · subst hqp
        exact ⟨v, List.mem_cons_self⟩
      · have hrest := (List.mem_cons.mp h).resolve_left fun heq => hqp (Prod.mk.inj heq).1
        have hnew : q ∉ seen.insert p := fun hmem =>
          (FiniteSet.mem_insert.mp hmem).elim hqp hq
        obtain ⟨u, hu⟩ := ih hrest hnew
        exact ⟨u, List.mem_cons_of_mem _ hu⟩

/-- The first occurrence of a state comes before the others. -/
theorem eq_or_before_of_mem_firstSeen {before : Access → Access → Prop}
    (hordered : accesses.Pairwise before) (h : (q, w) ∈ firstSeen seen accesses)
    (hu : (q, u) ∈ accesses) : u = w ∨ before (q, w) (q, u) := by
  induction accesses generalizing seen with
  | nil => simp at hu
  | cons access rest ih =>
    obtain ⟨p, v⟩ := access
    obtain ⟨hfirst, hordered⟩ := List.pairwise_cons.mp hordered
    have hq := notMem_of_mem_firstSeen h
    rw [firstSeen] at h
    split at h
    · rename_i hp
      rcases List.mem_cons.mp hu with heq | hu
      · obtain ⟨rfl, -⟩ := Prod.mk.inj heq
        exact absurd (Std.ExtTreeSet.contains_iff_mem.mp hp) hq
      · exact ih hordered h hu
    · rcases List.mem_cons.mp h with heq | hrest
      · obtain ⟨rfl, rfl⟩ := Prod.mk.inj heq
        rcases List.mem_cons.mp hu with heq | hu
        · exact .inl (Prod.mk.inj heq).2
        · exact .inr (hfirst _ hu)
      · have hnew := notMem_of_mem_firstSeen hrest
        rcases List.mem_cons.mp hu with heq | hu
        · obtain ⟨rfl, -⟩ := Prod.mk.inj heq
          exact absurd (FiniteSet.mem_insert.mpr (.inl rfl)) hnew
        · exact ih hordered hrest hu

/-- If there are first occurrences, more states are seen. -/
theorem size_lt_of_firstSeen_ne_nil (hne : firstSeen seen accesses ≠ []) : seen.size <
    (seen ∪ StateSet.ofList ((firstSeen seen accesses).map (·.1))).size := by
  obtain ⟨⟨q, w⟩, hmem⟩ := List.exists_mem_of_ne_nil _ hne
  by_contra hle
  have hsame := FiniteSet.eq_of_subset_of_size_le (fun r hr => Std.ExtTreeSet.mem_union_iff.mpr
    (.inl hr)) (Nat.not_lt.mp hle)
  refine notMem_of_mem_firstSeen hmem ?_
  rw [hsame, Std.ExtTreeSet.mem_union_iff, StateSet.mem_ofList]
  exact .inr (List.mem_map_of_mem hmem)

end FirstSeen

/-- What holds of the states seen up to distance `k` and of the layer of the states at that
distance. -/
structure Layered (D : DFA) (k : Nat) (seen : StateSet) (layer : List Access) : Prop where
  mem_seen : ∀ q, q ∈ seen ↔ ∃ v, D.run v = some q ∧ v.length ≤ k
  length_eq : ∀ q w, (q, w) ∈ layer → w.length = k
  isLeast : ∀ q w, (q, w) ∈ layer → Word.IsLeast (fun v => D.run v = some q) w.reverse
  covers : ∀ v q, D.run v = some q → v.length = k → (∀ u, D.run u = some q → k ≤ u.length) →
    ∃ w, (q, w) ∈ layer
  ordered : layer.Pairwise fun x y => Word.lengthLex x.2.reverse y.2.reverse = .lt

/-- The first layer has the initial state, with the empty word. -/
theorem layered_start (D : DFA) : D.Layered 0 (.single D.initial) [(D.initial, [])] where
  mem_seen q := by
    rw [StateSet.mem_single]
    constructor
    · rintro rfl
      exact ⟨[], rfl, le_rfl⟩
    · intro h
      obtain ⟨v, hv, hlength⟩ := h
      obtain rfl := List.length_eq_zero_iff.mp (Nat.le_zero.mp hlength)
      exact (Option.some.inj hv).symm
  length_eq q w hmem := by
    obtain ⟨-, rfl⟩ := Prod.mk.inj (List.mem_singleton.mp hmem)
    rfl
  isLeast q w hmem := by
    obtain ⟨rfl, rfl⟩ := Prod.mk.inj (List.mem_singleton.mp hmem)
    refine ⟨rfl, fun v _ => Word.isLE_of_length_le (Nat.zero_le _) fun hempty => ?_⟩
    obtain rfl := List.length_eq_zero_iff.mp hempty.symm
    exact Ordering.isLE_of_eq_eq Word.lengthLex_self
  covers v q hv hlength _ := by
    obtain rfl := List.length_eq_zero_iff.mp hlength
    obtain rfl := Option.some.inj hv
    exact ⟨[], List.mem_singleton.mpr rfl⟩
  ordered := List.pairwise_singleton _ _

section Step

variable {k : Nat} {seen : StateSet} {layer : List Access} {q : State} {w : Word}

/-- A layer is extended by the symbols that lead on from its states. -/
theorem mem_extensions (hD : D.WellFormed) : (q, w) ∈ D.extensions layer ↔
    ∃ p u a, (p, u) ∈ layer ∧ D.successor? p a = some q ∧ a :: u = w := by
  simp only [extensions, List.mem_flatMap, List.mem_filterMap, Option.map_eq_some_iff,
    Prod.mk.injEq, Prod.exists, Std.ExtTreeSet.mem_toList]
  constructor
  · intro h
    obtain ⟨p, u, hp, a, -, q, hq, rfl, rfl⟩ := h
    exact ⟨p, u, a, hp, hq, rfl⟩
  · intro h
    obtain ⟨p, u, a, hp, hq, rfl⟩ := h
    exact ⟨p, u, hp, a, symbol_mem hD hq, q, hq, rfl, rfl⟩

/-- The extended words ascend: first by the words that are extended, then by the symbols. -/
theorem Layered.ordered_extensions (h : D.Layered k seen layer) :
    (D.extensions layer).Pairwise fun x y => Word.lengthLex x.2.reverse y.2.reverse = .lt := by
  have hlength := h.length_eq
  rw [extensions, List.pairwise_flatMap]
  constructor
  · intro (p, u) _
    refine Std.ExtTreeSet.ordered_toList.filterMap _ ?_
    intro a b hab x hx y hy
    obtain ⟨q, -, rfl⟩ := Option.map_eq_some_iff.mp hx
    obtain ⟨r, -, rfl⟩ := Option.map_eq_some_iff.mp hy
    rw [List.reverse_cons, List.reverse_cons, Word.lengthLex_concat rfl, Word.lengthLex_self]
    exact hab
  · refine h.ordered.imp_of_mem ?_
    intro (p, u) (p', u') hp hp' hlt x hx y hy
    obtain ⟨a, -, ha⟩ := List.mem_filterMap.mp hx
    obtain ⟨b, -, hb⟩ := List.mem_filterMap.mp hy
    obtain ⟨q, -, rfl⟩ := Option.map_eq_some_iff.mp ha
    obtain ⟨r, -, rfl⟩ := Option.map_eq_some_iff.mp hb
    have hsame : u.reverse.length = u'.reverse.length := by
      rw [List.length_reverse, List.length_reverse, hlength p u hp, hlength p' u' hp']
    rw [List.reverse_cons, List.reverse_cons, Word.lengthLex_concat hsame, hlt]
    rfl

/-- A state that was not seen occurs among the extensions if one more symbol leads to it, with a
word that is no greater than any other of this length. -/
theorem Layered.exists_extension (hD : D.WellFormed) (h : D.Layered k seen layer) (hq : q ∉ seen)
    {v : Word} (hv : D.run v = some q) (hlength : v.length = k + 1) :
    ∃ w, (q, w) ∈ D.extensions layer ∧ (Word.lengthLex w.reverse v).isLE := by
  rcases List.eq_nil_or_concat' v with rfl | ⟨v, b, rfl⟩
  · contradiction
  rw [run_concat] at hv
  obtain ⟨r, hr, hstep⟩ := Option.bind_eq_some_iff.mp hv
  have hk : v.length = k := by simpa using hlength
  -- A shorter way to the state before would have led to a state that was seen.
  have hfar : ∀ u, D.run u = some r → k ≤ u.length := by
    intro u hu
    by_contra hlt
    refine hq ((h.mem_seen q).mpr ⟨u ++ [b], ?_, ?_⟩)
    · rw [run_concat, hu, Option.bind_some, hstep]
    · rw [List.length_append, List.length_singleton]
      omega
  obtain ⟨u, hu⟩ := h.covers v r hr hk hfar
  refine ⟨b :: u, (mem_extensions hD).mpr ⟨r, u, b, hu, hstep, rfl⟩, ?_⟩
  have hsame : u.reverse.length = v.length := by
    rw [List.length_reverse, h.length_eq r u hu, hk]
  rw [List.reverse_cons, Word.lengthLex_concat hsame, Std.compare_self, Ordering.then_eq]
  exact (h.isLeast r u hu).isLE v hr

/-- The words of the next layer lead to states that were not seen, and are longer by one symbol. -/
theorem Layered.of_mem_firstSeen (hD : D.WellFormed) (h : D.Layered k seen layer)
    (hmem : (q, w) ∈ firstSeen seen (D.extensions layer)) :
    q ∉ seen ∧ w.length = k + 1 ∧ D.run w.reverse = some q := by
  obtain ⟨p, u, a, hp, hq, rfl⟩ :=
    (mem_extensions hD).mp ((firstSeen_sublist seen (D.extensions layer)).mem hmem)
  refine ⟨notMem_of_mem_firstSeen hmem, by rw [List.length_cons, h.length_eq p u hp], ?_⟩
  rw [List.reverse_cons, run_concat, (h.isLeast p u hp).holds, Option.bind_some, hq]

/-- The next layer has all states that were not seen and that a word of its length leads to. -/
theorem Layered.covers_firstSeen (hD : D.WellFormed) (h : D.Layered k seen layer) (hq : q ∉ seen)
    {v : Word} (hv : D.run v = some q) (hlength : v.length = k + 1) :
    ∃ w, (q, w) ∈ firstSeen seen (D.extensions layer) := by
  obtain ⟨w, hw, -⟩ := h.exists_extension hD hq hv hlength
  exact exists_mem_firstSeen hw hq

/-- With the next layer, the states are seen that one more symbol leads to. -/
theorem Layered.mem_union_firstSeen (hD : D.WellFormed) (h : D.Layered k seen layer) :
    q ∈ seen ∪ .ofList ((firstSeen seen (D.extensions layer)).map (·.1)) ↔
      ∃ v, D.run v = some q ∧ v.length ≤ k + 1 := by
  rw [Std.ExtTreeSet.mem_union_iff, StateSet.mem_ofList, List.mem_map]
  constructor
  · rintro (hq | ⟨⟨q, w⟩, hmem, rfl⟩)
    · obtain ⟨v, hv, hlength⟩ := (h.mem_seen q).mp hq
      exact ⟨v, hv, hlength.trans (Nat.le_succ k)⟩
    · obtain ⟨-, hlength, hrun⟩ := h.of_mem_firstSeen hD hmem
      exact ⟨w.reverse, hrun, by rw [List.length_reverse, hlength]⟩
  · intro hreached
    obtain ⟨v, hv, hlength⟩ := hreached
    by_cases hq : q ∈ seen
    · exact .inl hq
    · right
      have hlonger : v.length = k + 1 := by
        by_contra hne
        exact hq ((h.mem_seen q).mpr ⟨v, hv, by omega⟩)
      obtain ⟨w, hw⟩ := h.covers_firstSeen hD hq hv hlonger
      exact ⟨(q, w), hw, rfl⟩

/-- The words of the next layer are the least ones that lead to its states. -/
theorem Layered.isLeast_of_mem_firstSeen (hD : D.WellFormed) (h : D.Layered k seen layer)
    (hmem : (q, w) ∈ firstSeen seen (D.extensions layer)) :
    Word.IsLeast (fun v => D.run v = some q) w.reverse := by
  obtain ⟨hq, hlength, hrun⟩ := h.of_mem_firstSeen hD hmem
  rw [← List.length_reverse] at hlength
  refine ⟨hrun, fun v hv => Word.isLE_of_length_le ?_ fun hsame => ?_⟩
  · by_contra hlt
    exact hq ((h.mem_seen q).mpr ⟨v, hv, by omega⟩)
  · -- The first occurrence comes before the one that is no greater than `v`.
    obtain ⟨u, hu, hle⟩ := h.exists_extension hD hq hv (hsame.symm.trans hlength)
    rcases eq_or_before_of_mem_firstSeen h.ordered_extensions hmem hu with rfl | hbefore
    · exact hle
    · exact Std.TransCmp.isLE_trans (Ordering.isLE_of_eq_lt hbefore) hle

/-- The first occurrences among the extensions of a layer are the next layer. -/
theorem Layered.step (hD : D.WellFormed) (h : D.Layered k seen layer) : D.Layered (k + 1)
    (seen ∪ .ofList ((firstSeen seen (D.extensions layer)).map (·.1)))
    (firstSeen seen (D.extensions layer)) where
  mem_seen _ := h.mem_union_firstSeen hD
  length_eq _ _ hmem := (h.of_mem_firstSeen hD hmem).2.1
  isLeast _ _ hmem := h.isLeast_of_mem_firstSeen hD hmem
  covers v q hv hlength hfar := by
    refine h.covers_firstSeen hD (fun hq => ?_) hv hlength
    obtain ⟨u, hu, hshort⟩ := (h.mem_seen q).mp hq
    exact absurd (hfar u hu) (by omega)
  ordered := h.ordered_extensions.sublist (firstSeen_sublist seen _)

end Step

/-! ## The search -/

section Search

variable {k layers : Nat} {seen : StateSet} {layer : List Access} {q : State} {w : Word}

/-- If no shorter word is accepted, a layer has a final state for each accepted word of its length,
with a word that is no greater. -/
theorem Layered.exists_final (h : D.Layered k seen layer)
    (hfar : ∀ v, D.accepts v = true → k ≤ v.length) {v : Word} (hv : D.accepts v = true)
    (hlength : v.length = k) :
    ∃ r u, (r, u) ∈ layer ∧ D.isFinal r = true ∧ (Word.lengthLex u.reverse v).isLE := by
  obtain ⟨r, hr, hfinal⟩ := accepts_iff_exists_run.mp hv
  have hrfar : ∀ u, D.run u = some r → k ≤ u.length :=
    fun u hu => hfar u (accepts_iff_exists_run.mpr ⟨r, hu, hfinal⟩)
  obtain ⟨u, hu⟩ := h.covers v r hr hlength hrfar
  exact ⟨r, u, hu, hfinal, (h.isLeast r u hu).isLE v hr⟩

/-- The first final state of a layer has the least accepted word, if no shorter word is
accepted. -/
theorem Layered.isLeast_of_find? (h : D.Layered k seen layer)
    (hfar : ∀ v, D.accepts v = true → k ≤ v.length)
    (hfound : (layer.find? fun (q, _) => D.isFinal q) = some (q, w)) :
    Word.IsLeast (fun v => D.accepts v = true) w.reverse := by
  obtain ⟨hfinal, before, after, hlayer, hbefore⟩ := List.find?_eq_some_iff_append.mp hfound
  have hmem : (q, w) ∈ layer := by simp [hlayer]
  have hlength : w.reverse.length = k := by rw [List.length_reverse, h.length_eq q w hmem]
  refine ⟨accepts_iff_exists_run.mpr ⟨q, (h.isLeast q w hmem).holds, hfinal⟩, fun v hv =>
    Word.isLE_of_length_le (hlength ▸ hfar v hv) fun hsame => ?_⟩
  obtain ⟨r, u, hu, hrfinal, hle⟩ := h.exists_final hfar hv (hsame.symm.trans hlength)
  refine Std.TransCmp.isLE_trans ?_ hle
  -- The states before the first final one are not final, so this state comes with it or after it.
  have hordered := h.ordered
  rw [hlayer, List.pairwise_append, List.pairwise_cons] at hordered
  rw [hlayer] at hu
  rcases List.mem_append.mp hu with hu | hu
  · have hnot := hbefore (r, u) hu
    simp [hrfinal] at hnot
  · rcases List.mem_cons.mp hu with heq | hu
    · obtain ⟨rfl, rfl⟩ := Prod.mk.inj heq
      exact Ordering.isLE_of_eq_eq Word.lengthLex_self
    · exact Ordering.isLE_of_eq_lt (hordered.2.1.1 (r, u) hu)

/-- If no state of a layer is final, accepted words are longer. -/
theorem Layered.lt_length_of_find?_eq_none (h : D.Layered k seen layer)
    (hfar : ∀ v, D.accepts v = true → k ≤ v.length)
    (hnone : (layer.find? fun (q, _) => D.isFinal q) = none) {v : Word} (hv : D.accepts v = true) :
    k < v.length := by
  refine Nat.lt_of_le_of_ne (hfar v hv) fun hsame => ?_
  obtain ⟨r, u, hu, hfinal, -⟩ := h.exists_final hfar hv hsame.symm
  exact List.find?_eq_none.mp hnone (r, u) hu hfinal

/-- If a layer leads to no new states, all states that words lead to were seen. -/
theorem Layered.mem_seen_of_firstSeen_eq_nil (hD : D.WellFormed) (h : D.Layered k seen layer)
    (hempty : firstSeen seen (D.extensions layer) = []) {v : Word} (hv : D.run v = some q) :
    q ∈ seen := by
  have hclosed (r : State) : r ∈ seen ↔ ∃ v, D.run v = some r ∧ v.length ≤ k + 1 := by
    have hstep := (h.step hD).mem_seen r
    rw [hempty] at hstep
    simpa using hstep
  induction v using List.reverseRecOn generalizing q with
  | nil => exact (h.mem_seen q).mpr ⟨[], hv, Nat.zero_le k⟩
  | append_singleton v a ih =>
    rw [run_concat] at hv
    obtain ⟨r, hr, hstep⟩ := Option.bind_eq_some_iff.mp hv
    obtain ⟨u, hu, hlength⟩ := (h.mem_seen r).mp (ih hr)
    refine (hclosed q).mpr ⟨u ++ [a], by rw [run_concat, hu, Option.bind_some, hstep], ?_⟩
    simpa using hlength

/-- There are no more states seen than states. -/
theorem Layered.size_seen_le (hD : D.WellFormed) (h : D.Layered k seen layer) :
    seen.size ≤ D.states.size := by
  refine FiniteSet.size_le_of_injOn id (fun q hq => ?_) fun _ _ _ _ heq => heq
  obtain ⟨v, hv, -⟩ := (h.mem_seen q).mp hq
  exact runFrom_mem hD hD.initial_mem hv

/-- From any layer on, the search finds the least accepted word, if there are more layers to come
than states that were not seen. -/
theorem Layered.wordFrom? (hD : D.WellFormed) (h : D.Layered k seen layer)
    (hfar : ∀ v, D.accepts v = true → k ≤ v.length) (hlayers : D.states.size < layers + seen.size) :
    Word.FindsLeast (fun v => D.accepts v = true) (D.wordFrom? layers seen layer) := by
  induction layers generalizing k seen layer with
  | zero => exact absurd (h.size_seen_le hD) (by omega)
  | succ layers ih =>
    rw [DFA.wordFrom?]
    split
    · rename_i q w hfound
      refine ⟨fun hnone => by contradiction, fun v hv => ?_⟩
      obtain rfl := Option.some.inj hv
      exact h.isLeast_of_find? hfar hfound
    · rename_i hnone
      have hlonger {v : Word} (hv : D.accepts v = true) :=
        h.lt_length_of_find?_eq_none hfar hnone hv
      dsimp only
      split
      · rename_i hempty
        refine ⟨fun _ v hv => ?_, fun w hw => by contradiction⟩
        obtain ⟨q, hq, hfinal⟩ := accepts_iff_exists_run.mp hv
        obtain ⟨u, hu, hshort⟩ := (h.mem_seen q).mp
          (h.mem_seen_of_firstSeen_eq_nil hD (List.isEmpty_iff.mp hempty) hq)
        exact absurd (hlonger (accepts_iff_exists_run.mpr ⟨q, hu, hfinal⟩)) (by omega)
      · rename_i hempty
        have hmore := size_lt_of_firstSeen_ne_nil fun hnil => hempty (List.isEmpty_iff.mpr hnil)
        exact ih (h.step hD) (fun v hv => hlonger hv) (by omega)

/-- The search finds the least accepted word with as many layers as there are states, or more. -/
theorem findsLeast_wordFrom? (hD : D.WellFormed) (hlayers : D.states.size ≤ layers) :
    Word.FindsLeast (fun v => D.accepts v = true)
      (D.wordFrom? layers (.single D.initial) [(D.initial, [])]) := by
  have hsize : (StateSet.single D.initial).size = 1 := rfl
  exact (layered_start D).wordFrom? hD (fun _ _ => Nat.zero_le _) (by omega)

/-- The search of an automaton finds the least word it accepts, or none if there is none. -/
theorem findsLeast_leastWord? (hD : D.WellFormed) :
    Word.FindsLeast (fun v => D.accepts v = true) D.leastWord? := findsLeast_wordFrom? hD le_rfl

end Search

/-- In a well-formed automaton the search finds a word exactly if one is accepted, and it is
accepted and in length-lexicographic order no greater than any other accepted word. The language
counts as empty exactly if no word is accepted. The search ends by itself: if it may look at more
layers than there are states, it finds the same. -/
theorem least_accepted_word_is_found (D : DFA) (hD : D.WellFormed) :
    (D.leastWord? = none ↔ ∀ w, D.accepts w = false) ∧
    (∀ w, D.leastWord? = some w → D.accepts w = true ∧
      ∀ v, D.accepts v = true → (Word.lengthLex w v).isLE) ∧
    (D.isEmptyLanguage = true ↔ ∀ w, D.accepts w = false) ∧
    ∀ layers, D.states.size ≤ layers →
      D.wordFrom? layers (.single D.initial) [(D.initial, [])] = D.leastWord? := by
  have hleast := findsLeast_leastWord? hD
  have hnone : D.leastWord? = none ↔ ∀ w, D.accepts w = false := by
    simpa only [Bool.not_eq_true] using hleast.eq_none_iff
  refine ⟨hnone, ?_, ?_, ?_⟩
  · intro w hw
    exact ⟨(hleast.isLeast w hw).holds, (hleast.isLeast w hw).isLE⟩
  · rw [isEmptyLanguage, Option.isNone_iff_eq_none, hnone]
  · intro layers hlayers
    exact (findsLeast_wordFrom? hD hlayers).unique hleast

/-- Of two accepted words of the same length, the search finds the one that begins with the smaller
symbol, though its path takes the greater states. -/
theorem least_word_of_two_paths :
    let D : DFA := ⟨.ofList ["p", "q", "r", "s"], .ofText "ab",
      .ofTriples [("p", 'b', "q"), ("p", 'a', "r"), ("q", 'a', "s"), ("r", 'b', "s")], "p",
      .ofList ["s"]⟩
    D.WellFormed ∧ D.leastWord? = some ['a', 'b'] ∧ D.accepts ['b', 'a'] = true ∧
      ∀ v, D.accepts v = true → (Word.lengthLex ['a', 'b'] v).isLE := by
  intro D
  have hD : D.WellFormed := by
    apply wellFormed_ofTriples <;> simp_all [Alphabet.ofText]
    grind
  have hfound : D.leastWord? = some ['a', 'b'] := by decide +kernel
  obtain ⟨-, hleast, -, -⟩ := least_accepted_word_is_found D hD
  exact ⟨hD, hfound, by decide +kernel, (hleast _ hfound).2⟩

end RegularLanguages.DFA
