import RegularLanguages.Automaton.Search
import RegularLanguages.Proofs.FiniteSets

/-!
# What a search finds

Expanding a node adds the arcs from it, and the nodes at their ends as far as they are new. A node
is found once and expanded once, so a search with enough steps for all nodes there can be ends when
every node it has found is expanded, and then its arcs are all those between the nodes found.
-/

namespace RegularLanguages.Search

variable {σ : Type} [Ord σ] [Std.TransOrd σ]

/-- A search has gone on along some arcs: it has recorded them and found the nodes at their ends,
those that are new being the last ones to be expanded. -/
structure GoesOn (s t : Search σ) (arcs : List (σ × Symbol × σ)) : Prop where
  mem_arcs : ∀ e, e ∈ t.arcs ↔ e ∈ s.arcs ∨ e ∈ arcs
  mem_found : ∀ q, q ∈ t.found ↔ q ∈ s.found ∨ ∃ p a, (p, a, q) ∈ arcs
  pending : ∃ new, t.pending = s.pending ++ new ∧ (∀ q ∈ new, q ∈ t.found) ∧
    (∀ q ∈ t.found, q ∈ s.found ∨ q ∈ new) ∧ t.found.size = s.found.size + new.length

namespace GoesOn

/-- A search has gone on along no arcs when it stands where it stood. -/
theorem refl (s : Search σ) : GoesOn s s [] :=
  ⟨by simp, by simp, [], by simp, by simp, fun q hq => .inl hq, rfl⟩

/-- Going on twice is going on along all arcs. -/
theorem trans {s t u : Search σ} {arcs arcs' : List (σ × Symbol × σ)} (h : GoesOn s t arcs)
    (h' : GoesOn t u arcs') : GoesOn s u (arcs ++ arcs') := by
  obtain ⟨new, hpending, hnew, hfound, hsize⟩ := h.pending
  obtain ⟨new', hpending', hnew', hfound', hsize'⟩ := h'.pending
  refine ⟨?_, ?_, new ++ new', ?_, ?_, ?_, ?_⟩
  · intro e
    rw [h'.mem_arcs, h.mem_arcs, List.mem_append, or_assoc]
  · intro q
    simp only [h'.mem_found, h.mem_found, List.mem_append, exists_or, or_assoc]
  · rw [hpending', hpending, List.append_assoc]
  · intro q hq
    rcases List.mem_append.mp hq with hq | hq
    · exact (h'.mem_found q).mpr (.inl (hnew q hq))
    · exact hnew' q hq
  · intro q hq
    rcases hfound' q hq with hq | hq
    · rcases hfound q hq with hq | hq
      · exact .inl hq
      · exact .inr (List.mem_append_left _ hq)
    · exact .inr (List.mem_append_right _ hq)
  · rw [hsize', hsize, List.length_append, Nat.add_assoc]

end GoesOn

variable [Std.LawfulEqOrd σ]

/-- Following an arc records it and finds its end. -/
theorem goesOn_reach (p : σ) (a : Symbol) (s : Search σ) (q : σ) :
    GoesOn s (Id.run (s.reach Meter.free p a q)) [(p, a, q)] := by
  have hfound (r : σ) : (∃ p' a', (p', a', r) ∈ [(p, a, q)]) ↔ r = q := by simp
  by_cases hq : q ∈ s.found
  · have hcontains : s.found.contains q = true := Std.ExtTreeSet.contains_iff_mem.mpr hq
    have hresult : Id.run (s.reach Meter.free p a q) = s.link p a q := by
      simp [reach, hcontains]
    rw [hresult]
    refine ⟨?_, ?_, [], ?_, ?_, ?_, rfl⟩
    · intro e
      rw [link, List.mem_cons, List.mem_singleton, or_comm]
    · intro r
      rw [hfound]
      exact (or_iff_left_of_imp fun h => h ▸ hq).symm
    · simp [pending, link]
    · simp
    · exact fun r hr => .inl hr
  · have hcontains : s.found.contains q = false := FiniteSet.contains_eq_false.mpr hq
    have hresult : Id.run (s.reach Meter.free p a q) = (s.discover q).link p a q := by
      simp [reach, hcontains, Meter.free]
    have hmem (r : σ) : r ∈ (s.discover q).found ↔ r = q ∨ r ∈ s.found := FiniteSet.mem_insert
    rw [hresult]
    refine ⟨?_, ?_, [q], pending_discover s q, ?_, ?_, ?_⟩
    · intro e
      rw [link, List.mem_cons, List.mem_singleton, or_comm]
      rfl
    · intro r
      rw [hfound, or_comm]
      exact hmem r
    · intro r hr
      exact (hmem r).mpr (.inl (List.mem_singleton.mp hr))
    · intro r hr
      rw [List.mem_singleton, or_comm]
      exact (hmem r).mp hr
    · exact (Std.ExtTreeSet.size_insert ..).trans (by simp [hq])

/-- Going to several nodes follows an arc to each of them. -/
theorem goesOn_reachAll (p : σ) (a : Symbol) (s : Search σ) (targets : List σ) :
    GoesOn s (Id.run (s.reachAll Meter.free p a targets)) (targets.map fun q => (p, a, q)) := by
  induction targets generalizing s with
  | nil => exact .refl s
  | cons q targets ih => exact (goesOn_reach p a s q).trans (ih _)

/-- Following several symbols from a node follows all their arcs. -/
theorem goesOn_followAll (next : σ → Symbol → List σ) (p : σ) (s : Search σ)
    (symbols : List Symbol) :
    GoesOn s (Id.run (followAll Meter.free next p s symbols))
      (symbols.flatMap fun a => (next p a).map fun q => (p, a, q)) := by
  induction symbols generalizing s with
  | nil => exact .refl s
  | cons a symbols ih =>
    rw [List.flatMap_cons]
    exact (goesOn_reachAll p a s (next p a)).trans (ih _)

/-- What holds of a search between two expansions: the arcs are those from the nodes that have been
expanded, and all their ends are found. -/
structure Invariant (symbols : List Symbol) (next : σ → Symbol → List σ) (good : σ → Prop)
    (first : σ) (s : Search σ) : Prop where
  first_mem : first ∈ s.found
  good_of_mem : ∀ p ∈ s.found, good p
  mem_of_pending : ∀ p ∈ s.pending, p ∈ s.found
  source_mem : ∀ p a q, (p, a, q) ∈ s.arcs → p ∈ s.found
  arc_sound : ∀ p a q, (p, a, q) ∈ s.arcs → a ∈ symbols ∧ q ∈ next p a
  target_mem : ∀ p a q, (p, a, q) ∈ s.arcs → q ∈ s.found
  expanded : ∀ p ∈ s.found, p ∉ s.pending →
    ∀ a ∈ symbols, ∀ q ∈ next p a, (p, a, q) ∈ s.arcs

/-- What holds of a search that has ended: all nodes that can be found are found, with the arcs
between them. -/
structure Explores (symbols : List Symbol) (next : σ → Symbol → List σ) (good : σ → Prop)
    (first : σ) (s : Search σ) : Prop where
  first_mem : first ∈ s.found
  good_of_mem : ∀ p ∈ s.found, good p
  mem_arcs : ∀ p a q, (p, a, q) ∈ s.arcs ↔ p ∈ s.found ∧ a ∈ symbols ∧ q ∈ next p a
  mem_of_next : ∀ p ∈ s.found, ∀ a ∈ symbols, ∀ q ∈ next p a, q ∈ s.found

variable {symbols : List Symbol} {next : σ → Symbol → List σ} {good : σ → Prop} {first : σ}

/-- A search begins with one node. -/
@[simp] theorem size_found_start (first : σ) : (start first).found.size = 1 :=
  FiniteSet.size_ofList (l := [first]) (List.nodup_singleton first)

/-- The invariant of a search holds at its start, where only the first node has been found. -/
theorem invariant_start (hfirst : good first) :
    Invariant symbols next good first (start first) := by
  have hmem (p : σ) : p ∈ (start first).found ↔ p = first := by
    have hfirst : p ∈ (start first).found ↔ first = p := by simp [start]
    exact hfirst.trans eq_comm
  have hpending (p : σ) : p ∈ (start first).pending ↔ p = first := by
    simp [start, pending]
  refine ⟨(hmem first).mpr rfl, ?_, ?_, ?_, ?_, ?_, ?_⟩
  · intro p hp
    rwa [(hmem p).mp hp]
  · exact fun p hp => (hmem p).mpr ((hpending p).mp hp)
  · simp [start]
  · simp [start]
  · simp [start]
  · exact fun p hp hnot => absurd ((hpending p).mpr ((hmem p).mp hp)) hnot

omit [Std.LawfulEqOrd σ] in
/-- When nothing is pending, all nodes are expanded. -/
theorem Invariant.explores {s : Search σ} (h : Invariant symbols next good first s)
    (hpending : s.pending = []) : Explores symbols next good first s := by
  have hall : ∀ p ∈ s.found, ∀ a ∈ symbols, ∀ q ∈ next p a, (p, a, q) ∈ s.arcs :=
    fun p hp => h.expanded p hp (by simp [hpending])
  refine ⟨h.first_mem, h.good_of_mem, ?_, ?_⟩
  · intro p a q
    constructor
    · exact fun harc => ⟨h.source_mem p a q harc, h.arc_sound p a q harc⟩
    · exact fun ⟨hp, ha, hq⟩ => hall p hp a ha q hq
  · exact fun p hp a ha q hq => h.target_mem p a q (hall p hp a ha q hq)

omit [Std.LawfulEqOrd σ] in
/-- Taking a node from the pending ones leaves what was found and recorded. -/
theorem found_and_arcs_of_next? {s t : Search σ} {p : σ} (h : s.next? = some (p, t)) :
    t.found = s.found ∧ t.arcs = s.arcs := by
  grind [next?]

/-- What expanding a node does: its arcs are recorded, and the new nodes at their ends come last. -/
structure Expands (symbols : List Symbol) (next : σ → Symbol → List σ) (s : Search σ) (p : σ)
    (u : Search σ) : Prop where
  mem_found : ∀ q, q ∈ u.found ↔ q ∈ s.found ∨ ∃ a ∈ symbols, q ∈ next p a
  mem_arcs : ∀ r a q, (r, a, q) ∈ u.arcs ↔
    (r, a, q) ∈ s.arcs ∨ (r = p ∧ a ∈ symbols ∧ q ∈ next p a)
  pending : ∃ rest new, s.pending = p :: rest ∧ u.pending = rest ++ new ∧
    (∀ q ∈ new, q ∈ u.found) ∧ ∀ q ∈ u.found, q ∈ s.found ∨ q ∈ new

omit [Std.LawfulEqOrd σ] in
/-- Going on along all arcs from the first pending node expands it. -/
theorem GoesOn.expands {s t u : Search σ} {p : σ} (hnext : s.next? = some (p, t))
    (hu : GoesOn t u (symbols.flatMap fun a => (next p a).map fun q => (p, a, q))) :
    Expands symbols next s p u := by
  obtain ⟨hfound, harcs⟩ := found_and_arcs_of_next? hnext
  have hnew (r : σ) (a : Symbol) (q : σ) :
      (r, a, q) ∈ (symbols.flatMap fun a => (next p a).map fun q => (p, a, q)) ↔
        r = p ∧ a ∈ symbols ∧ q ∈ next p a := by
    simp only [List.mem_flatMap, List.mem_map, Prod.mk.injEq]
    constructor
    · intro h
      obtain ⟨a, ha, q, hq, rfl, rfl, rfl⟩ := h
      exact ⟨rfl, ha, hq⟩
    · intro h
      obtain ⟨rfl, ha, hq⟩ := h
      exact ⟨a, ha, q, hq, rfl, rfl, rfl⟩
  refine ⟨?_, ?_, ?_⟩
  · intro q
    rw [hu.mem_found, hfound]
    simp only [hnew]
    refine or_congr_right ⟨?_, ?_⟩
    · intro h
      obtain ⟨_, a, rfl, ha, hq⟩ := h
      exact ⟨a, ha, hq⟩
    · intro h
      obtain ⟨a, ha, hq⟩ := h
      exact ⟨p, a, rfl, ha, hq⟩
  · intro r a q
    rw [hu.mem_arcs, harcs, hnew]
  · obtain ⟨new, hpending, hfound', hcovers, -⟩ := hu.pending
    exact ⟨t.pending, new, pending_of_next? hnext, hpending, hfound', hfound ▸ hcovers⟩

omit [Std.LawfulEqOrd σ] in
/-- Expanding a pending node keeps the invariant. -/
theorem Invariant.expand_node (hgood : ∀ p a q, good p → a ∈ symbols → q ∈ next p a → good q)
    {s u : Search σ} {p : σ} (h : Invariant symbols next good first s)
    (hu : Expands symbols next s p u) : Invariant symbols next good first u := by
  obtain ⟨rest, new, hpending, hpending', hnew, hcovers⟩ := hu.pending
  have hp : p ∈ s.found := h.mem_of_pending p (by simp [hpending])
  refine ⟨(hu.mem_found first).mpr (.inl h.first_mem), ?_, ?_, ?_, ?_, ?_, ?_⟩
  · intro q hq
    rcases (hu.mem_found q).mp hq with hq | ⟨a, ha, hq⟩
    · exact h.good_of_mem q hq
    · exact hgood p a q (h.good_of_mem p hp) ha hq
  · intro q hq
    rw [hpending', List.mem_append] at hq
    rcases hq with hq | hq
    · have hold : q ∈ s.pending := hpending ▸ List.mem_cons_of_mem p hq
      exact (hu.mem_found q).mpr (.inl (h.mem_of_pending q hold))
    · exact hnew q hq
  · intro r a q harc
    rcases (hu.mem_arcs r a q).mp harc with hold | ⟨rfl, -, -⟩
    · exact (hu.mem_found r).mpr (.inl (h.source_mem r a q hold))
    · exact (hu.mem_found _).mpr (.inl hp)
  · intro r a q harc
    rcases (hu.mem_arcs r a q).mp harc with hold | ⟨rfl, ha, hq⟩
    · exact h.arc_sound r a q hold
    · exact ⟨ha, hq⟩
  · intro r a q harc
    rcases (hu.mem_arcs r a q).mp harc with hold | ⟨rfl, ha, hq⟩
    · exact (hu.mem_found q).mpr (.inl (h.target_mem r a q hold))
    · exact (hu.mem_found q).mpr (.inr ⟨a, ha, hq⟩)
  · intro r hr hnot a ha q hq
    rw [hpending', List.mem_append, not_or] at hnot
    by_cases hsame : r = p
    · subst hsame
      exact (hu.mem_arcs r a q).mpr (.inr ⟨rfl, ha, hq⟩)
    · have hold : r ∈ s.found := (hcovers r hr).resolve_right hnot.2
      have hdone : r ∉ s.pending := by
        rw [hpending, List.mem_cons, not_or]
        exact ⟨hsame, hnot.1⟩
      exact (hu.mem_arcs r a q).mpr (.inl (h.expanded r hold hdone a ha q hq))

omit [Std.LawfulEqOrd σ] in
/-- A search with nothing pending is not changed by expanding. -/
theorem expand_of_next?_eq_none {s : Search σ} (h : s.next? = none) (nodes : Nat) :
    Id.run (expand Meter.free symbols next (nodes + 1) s) = s := by
  simp [expand, h]

omit [Std.LawfulEqOrd σ] in
/-- Expanding takes the first pending node and follows the symbols from it, before the other
nodes. -/
theorem expand_of_next? {s t : Search σ} {p : σ} (h : s.next? = some (p, t)) (nodes : Nat) :
    Id.run (expand Meter.free symbols next (nodes + 1) s) =
      Id.run (expand Meter.free symbols next nodes
        (Id.run (followAll Meter.free next p t symbols))) := by
  simp [expand, h]

/-- Expanding nodes one after another keeps the invariant. -/
theorem invariant_expand (hgood : ∀ p a q, good p → a ∈ symbols → q ∈ next p a → good q)
    (nodes : Nat) (s : Search σ) (h : Invariant symbols next good first s) :
    Invariant symbols next good first (Id.run (expand Meter.free symbols next nodes s)) := by
  induction nodes generalizing s with
  | zero => exact h
  | succ nodes ih =>
    cases hnext : s.next? with
    | none =>
      rw [expand_of_next?_eq_none hnext]
      exact h
    | some found =>
      rw [expand_of_next? hnext]
      exact ih _ (h.expand_node hgood ((goesOn_followAll next _ _ symbols).expands hnext))

/-- A search with enough steps for all nodes there can be leaves none pending. -/
theorem pending_expand (hgood : ∀ p a q, good p → a ∈ symbols → q ∈ next p a → good q)
    {limit : Nat} (hlimit : ∀ t : Std.ExtTreeSet σ, (∀ p ∈ t, good p) → t.size ≤ limit)
    (nodes : Nat) (s : Search σ) (h : Invariant symbols next good first s)
    (hnodes : limit + s.pending.length ≤ nodes + s.found.size) :
    (Id.run (expand Meter.free symbols next nodes s)).pending = [] := by
  induction nodes generalizing s with
  | zero =>
    have hbound := hlimit s.found h.good_of_mem
    exact List.eq_nil_of_length_eq_zero (by rw [expand, Id.run_pure]; omega)
  | succ nodes ih =>
    cases hnext : s.next? with
    | none =>
      rw [expand_of_next?_eq_none hnext]
      exact pending_eq_nil_of_next? hnext
    | some found =>
      obtain ⟨p, t⟩ := found
      have hgoes := goesOn_followAll next p t symbols
      have hpending := pending_of_next? hnext
      obtain ⟨hfound, -⟩ := found_and_arcs_of_next? hnext
      rw [expand_of_next? hnext]
      refine ih _ (h.expand_node hgood (hgoes.expands hnext)) ?_
      obtain ⟨new, hpending', -, -, hsize⟩ := hgoes.pending
      rw [hpending', hsize, hfound, List.length_append]
      rw [hpending, List.length_cons] at hnodes
      omega

/-- Nothing is pending after a search that begins with a good node, if good nodes lead to good nodes
and there are no more of these than steps. -/
theorem pending_run (hfirst : good first)
    (hgood : ∀ p a q, good p → a ∈ symbols → q ∈ next p a → good q) {limit : Nat}
    (hlimit : ∀ t : Std.ExtTreeSet σ, (∀ p ∈ t, good p) → t.size ≤ limit) :
    (Id.run (run Meter.free symbols next limit first)).pending = [] := by
  refine pending_expand hgood hlimit limit (start first) (invariant_start hfirst) ?_
  rw [size_found_start]
  rfl

/-- A search that begins with a good node finds all nodes and arcs, if good nodes lead to good
nodes and there are no more of these than steps. -/
theorem explores_run (hfirst : good first)
    (hgood : ∀ p a q, good p → a ∈ symbols → q ∈ next p a → good q) {limit : Nat}
    (hlimit : ∀ t : Std.ExtTreeSet σ, (∀ p ∈ t, good p) → t.size ≤ limit) :
    Explores symbols next good first (Id.run (run Meter.free symbols next limit first)) :=
  (invariant_expand hgood limit (start first) (invariant_start hfirst)).explores
    (pending_run hfirst hgood hlimit)

end RegularLanguages.Search
