import RegularLanguages.Proofs.Assemblies
import RegularLanguages.Proofs.Regions

/-!
# What the fragments of an automaton recognize

An operation adds states at the end of the arena and no transitions to older states but those that
leave the operands by their final states. So the traces inside a fragment survive whatever happens
outside it, and the language of a combined fragment is found by cutting its traces where they pass
from one operand to another.
-/

namespace RegularLanguages

open scoped Computability

namespace Arena

/-- The transitions of an arena as moves between numbers. -/
def Links (arena : Arena) (m : Nat) (l : Label) (n : Nat) : Prop := ⟨m, l, n⟩ ∈ arena.edges

/-- All transitions leave states that have been numbered. -/
def Bounded (arena : Arena) : Prop := ∀ m l n, arena.Links m l n → m < arena.size

/-- A new transition adds no state. -/
@[simp] theorem size_link (arena : Arena) (p q : Nat) (l : Label) :
    (arena.link p l q).size = arena.size := rfl

/-- A new state is one state more. -/
@[simp] theorem size_addState (arena : Arena) : arena.addState.size = arena.size + 1 := rfl

/-- A new state has no transitions yet. -/
@[simp] theorem links_addState {arena : Arena} {m n : Nat} {l : Label} :
    arena.addState.Links m l n ↔ arena.Links m l n := .rfl

/-- With a new transition, an arena has this one and those it had. -/
@[simp] theorem links_link {arena : Arena} {p q m n : Nat} {k l : Label} :
    (arena.link p k q).Links m l n ↔ (m = p ∧ l = k ∧ n = q) ∨ arena.Links m l n := by
  simp [Links, link]

/-- New empty moves add no state. -/
@[simp] theorem size_moves (arena : Arena) (sources : List Nat) (target : Nat) :
    (arena.moves sources target).size = arena.size := by
  induction sources generalizing arena with
  | nil => rfl
  | cons p sources ih => exact ih (arena.link p .epsilon target)

/-- Adding empty moves to a target adds one for each of the sources. -/
@[simp] theorem links_moves {arena : Arena} {sources : List Nat} {target m n : Nat} {l : Label} :
    (arena.moves sources target).Links m l n ↔
      (m ∈ sources ∧ l = .epsilon ∧ n = target) ∨ arena.Links m l n := by
  induction sources generalizing arena with
  | nil => simp [moves]
  | cons p sources ih =>
    change ((arena.link p .epsilon target).moves sources target).Links m l n ↔ _
    rw [ih, links_link, List.mem_cons, ← or_assoc, ← or_and_right, or_comm (a := m ∈ sources)]

/-- A copy has the transitions of what is copied, each at a distance from its original. -/
theorem links_copyFrom {arena : Arena} {first m n : Nat} {l : Label} :
    (arena.copyFrom first).Links m l n ↔
      (∃ m' n', first ≤ m' ∧ arena.Links m' l n' ∧ m' + (arena.size - first) = m ∧
        n' + (arena.size - first) = n) ∨ arena.Links m l n := by
  simp only [copyFrom, Links, List.mem_append, List.mem_map, List.mem_filter, decide_eq_true_eq,
    NumberedEdge.mk.injEq]
  constructor
  · intro h
    rcases h with ⟨⟨m', k, n'⟩, ⟨hmem, hfirst⟩, hm, rfl, hn⟩ | hmem
    · exact .inl ⟨m', n', hfirst, hmem, hm, hn⟩
    · exact .inr hmem
  · intro h
    rcases h with ⟨m', n', hfirst, hmem, hm, hn⟩ | hmem
    · exact .inl ⟨⟨m', l, n'⟩, ⟨hmem, hfirst⟩, hm, rfl, hn⟩
    · exact .inr hmem

/-- The states that have been added from one arena to another. -/
def Between (before after : Arena) (m : Nat) : Prop := before.size ≤ m ∧ m < after.size

/-- Nothing leads anywhere as long as there are no states. -/
theorem not_links_empty {m n : Nat} {l : Label} : ¬Arena.empty.Links m l n := List.not_mem_nil

/-- The empty arena has no transitions that could leave it. -/
theorem bounded_empty : Arena.empty.Bounded := fun _ _ _ h => absurd h not_links_empty

/-- A fragment has been added to an arena. The old states keep their transitions, and those of the
new states stay among the new states. -/
structure Places (before after : Arena) (x : Fragment) : Prop where
  first_eq : x.first = before.size
  old : ∀ m l n, m < before.size → (after.Links m l n ↔ before.Links m l n)
  new : ∀ m l n, before.size ≤ m → after.Links m l n →
    m < after.size ∧ before.size ≤ n ∧ n < after.size
  start_new : before.size ≤ x.start ∧ x.start < after.size
  finals_new : ∀ f ∈ x.finals, before.size ≤ f ∧ f < after.size

/-- A fragment with the language `L` has been added to an arena. -/
structure Makes (before after : Arena) (x : Fragment) (L : Language Symbol) : Prop extends
    Places before after x where
  recognizes : ∀ w, w ∈ L ↔ ∃ f ∈ x.finals, Trace after.Links x.start w f

namespace Places

variable {before after : Arena} {x : Fragment}

/-- Adding a fragment takes no states away. -/
theorem size_le (h : Places before after x) : before.size ≤ after.size :=
  h.start_new.1.trans h.start_new.2.le

/-- Transitions leave numbered states after the operation as well. -/
theorem bounded (h : Places before after x) : after.Bounded := by
  intro m l n hlink
  by_cases hm : m < before.size
  · exact hm.trans_le h.size_le
  · exact (h.new m l n (not_lt.mp hm) hlink).1

/-- A fragment keeps its region and its moves if all that is added is exits. -/
theorem encloses (h : Places before after x) {links : Nat → Label → Nat → Prop}
    {exits : Nat → Nat → Prop} (hlinks : ∀ m l n, Between before after m →
      (links m l n ↔ after.Links m l n ∨ (l = .epsilon ∧ exits m n))) :
    Encloses (Between before after) after.Links links exits where
  stays m l n hm hlink := (h.new m l n hm.1 hlink).2
  moves_iff := hlinks

variable {L : Language Symbol}

/-- A fragment recognizes the words that lead from its first state to a final one. -/
theorem makes (h : Places before after x)
    (hwords : wordsFrom after.Links x.start (· ∈ x.finals) = L) : Makes before after x L where
  toPlaces := h
  recognizes := by
    intro w
    rw [← hwords]
    exact mem_wordsFrom

end Places

/-- The words that lead through an added fragment are its language. -/
theorem Makes.words_eq {before after : Arena} {x : Fragment} {L : Language Symbol}
    (h : Makes before after x L) : wordsFrom after.Links x.start (· ∈ x.finals) = L :=
  Language.ext fun w => (h.recognizes w).symm

variable {before : Arena} {L M : Language Symbol}

/-- No transition leaves a state that has not been numbered. -/
theorem Bounded.not_links (h : before.Bounded) {m n : Nat} {l : Label} (hm : before.size ≤ m) :
    ¬before.Links m l n := fun hlink => absurd (h m l n hlink) (not_lt.mpr hm)

/-- The only transition of a literal reads its symbol. -/
theorem links_literal (h : before.Bounded) {a : Symbol} {m n : Nat} {l : Label}
    (hm : before.size ≤ m) : (before.literal a).1.Links m l n ↔
      m = before.size ∧ l = .symbol a ∧ n = before.size + 1 := by
  simp [literal, h.not_links hm]

/-- The only trace through a literal reads its symbol. -/
theorem trace_literal_iff (h : before.Bounded) {a : Symbol} {w : Word} :
    Trace (before.literal a).1.Links before.size w (before.size + 1) ↔ w = [a] := by
  constructor
  · intro htrace
    generalize hend : before.size + 1 = f at htrace
    cases htrace with
    | refl => omega
    | epsilon hstep => simp [links_literal h] at hstep
    | symbol hstep hrest =>
      obtain ⟨-, hsymbol, rfl⟩ := (links_literal h le_rfl).mp hstep
      obtain rfl := (Label.symbol.inj hsymbol).symm
      have hsink : ∀ l n, ¬(before.literal a).1.Links (before.size + 1) l n := by
        intro l n hlink
        have hlater := (links_literal h (Nat.le_succ _)).mp hlink
        omega
      rw [(hrest.of_sink hsink).1]
  · intro hw
    subst hw
    exact .symbol ((links_literal h le_rfl).mpr ⟨rfl, rfl, rfl⟩) (.refl _)

/-- Two states with a transition over a symbol recognize the word of this symbol. -/
theorem makes_literal (h : before.Bounded) (a : Symbol) :
    Makes before (before.literal a).1 (before.literal a).2 {[a]} where
  first_eq := rfl
  old := by
    intro m l n hm
    simp [literal, Nat.ne_of_lt hm]
  new := by
    intro m l n hm hlink
    have hread := (links_literal h hm).mp hlink
    simp only [literal, size_link, size_addState]
    omega
  start_new := by
    simp only [literal, size_link, size_addState]
    omega
  finals_new := by simp [literal]
  recognizes := by
    intro w
    change w = [a] ↔ ∃ f ∈ [before.size + 1], Trace (before.literal a).1.Links before.size w f
    simp only [List.mem_singleton, exists_eq_left]
    exact (trace_literal_iff h).symm

/-- A state without transitions has the trace of the empty word only. -/
theorem makes_epsilon (h : before.Bounded) : Makes before before.epsilon.1 before.epsilon.2 1 where
  first_eq := rfl
  old := fun _ _ _ _ => .rfl
  new := fun _ _ _ hm hlink => absurd hlink (h.not_links hm)
  start_new := by simp [epsilon]
  finals_new := by simp [epsilon]
  recognizes := by
    intro w
    change w = [] ↔ ∃ f ∈ [before.size], Trace before.Links before.size w f
    simp only [List.mem_singleton, exists_eq_left]
    constructor
    · intro h
      subst h
      exact .refl _
    · intro htrace
      exact (htrace.of_sink fun _ _ => h.not_links le_rfl).1

/-- Without final states nothing is recognized. -/
theorem makes_nothing (h : before.Bounded) : Makes before before.nothing.1 before.nothing.2 0 where
  first_eq := rfl
  old := fun _ _ _ _ => .rfl
  new := fun _ _ _ hm hlink => absurd hlink (h.not_links hm)
  start_new := by simp [nothing]
  finals_new := by simp [nothing]
  recognizes := by simp [nothing]

/-! ### Two fragments -/

section Two

variable {middle after : Arena} {x y : Fragment}

/-- Transitions from new states after two fragments lead to new states. -/
theorem Places.new_of_links (hx : Places before middle x) (hy : Places middle after y) {m n : Nat}
    {l : Label} (hm : before.size ≤ m) (hlink : after.Links m l n) :
    m < after.size ∧ before.size ≤ n ∧ n < after.size := by
  have hgrows := hx.size_le
  have hgrows' := hy.size_le
  by_cases hmiddle : m < middle.size
  · have hinner := hx.new m l n hm ((hy.old m l n hmiddle).mp hlink)
    omega
  · have hinner := hy.new m l n (not_lt.mp hmiddle) hlink
    omega

/-- A concatenation has empty moves from the final states of one fragment to the start of the other
besides the transitions that were there. -/
theorem links_concat {m n : Nat} {l : Label} : (after.concat x y).1.Links m l n ↔
    (m ∈ x.finals ∧ l = .epsilon ∧ n = y.start) ∨ after.Links m l n := links_moves

/-- Two fragments that were added one after another are placed as one when they are concatenated. -/
theorem Places.concat (hx : Places before middle x) (hy : Places middle after y) :
    Places before (after.concat x y).1 (after.concat x y).2 := by
  have hsize : (after.concat x y).1.size = after.size := size_moves _ _ _
  have hgrows := hx.size_le
  have hgrows' := hy.size_le
  have hstart := hy.start_new
  refine ⟨hx.first_eq, ?old, ?new, ?start, ?finals⟩
  case old =>
    intro m l n hm
    have hnot : m ∉ x.finals := fun h => absurd (hx.finals_new m h).1 (not_le.mpr hm)
    simp [links_concat, hnot, hy.old m l n (hm.trans_le hgrows), hx.old m l n hm]
  case new =>
    intro m l n hm hlink
    rw [hsize]
    rcases links_concat.mp hlink with ⟨hfinal, -, rfl⟩ | hlink
    · have hmiddle := hx.finals_new m hfinal
      omega
    · exact hx.new_of_links hy hm hlink
  case start =>
    rw [hsize]
    exact ⟨hx.start_new.1, hx.start_new.2.trans_le hgrows'⟩
  case finals =>
    intro f hf
    rw [hsize]
    exact ⟨hgrows.trans (hy.finals_new f hf).1, (hy.finals_new f hf).2⟩

/-- One fragment after another recognizes the product of the languages. -/
theorem Makes.concat (hx : Makes before middle x L) (hy : Makes middle after y M) :
    Makes before (after.concat x y).1 (after.concat x y).2 (L * M) := by
  refine (hx.toPlaces.concat hy.toPlaces).makes ?_
  have hleft : Encloses (Between before middle) middle.Links (after.concat x y).1.Links
      fun f g => f ∈ x.finals ∧ g = y.start := by
    refine hx.encloses fun m l n hm => ?_
    rw [links_concat, hy.old m l n hm.2]
    tauto
  have hright : Encloses (Between middle after) after.Links (after.concat x y).1.Links
      fun _ _ => False := by
    refine hy.encloses fun m l n hm => ?_
    have hnot : m ∉ x.finals := fun h => absurd (hx.finals_new m h).2 (not_lt.mpr hm.1)
    simp [links_concat, hnot]
  have houtside : ∀ f ∈ y.finals, ¬Between before middle f :=
    fun f hf h => absurd h.2 (not_lt.mpr (hy.finals_new f hf).1)
  calc wordsFrom (after.concat x y).1.Links x.start (· ∈ y.finals)
      = wordsFrom middle.Links x.start (· ∈ x.finals) *
          wordsFrom after.Links y.start (· ∈ y.finals) :=
        wordsFrom_sequence hleft hright hx.start_new hy.start_new houtside
    _ = L * M := by rw [hx.words_eq, hy.words_eq]

/-- A union has empty moves from its new state to the starts of both fragments besides the
transitions that were there. -/
theorem links_union {m n : Nat} {l : Label} : (after.union x y).1.Links m l n ↔
    (m = after.size ∧ l = .epsilon ∧ (n = x.start ∨ n = y.start)) ∨ after.Links m l n := by
  simp only [Arena.union, links_link, links_addState]
  tauto

/-- Two fragments that were added one after another are placed as one when they are united. -/
theorem Places.union (hx : Places before middle x) (hy : Places middle after y) :
    Places before (after.union x y).1 (after.union x y).2 := by
  have hsize : (after.union x y).1.size = after.size + 1 := rfl
  have hgrows := hx.size_le
  have hgrows' := hy.size_le
  have hstart := hx.start_new
  have hstart' := hy.start_new
  refine ⟨hx.first_eq, ?old, ?new, ?start, ?finals⟩
  case old =>
    intro m l n hm
    have hne : m ≠ after.size := by omega
    simp [links_union, hne, hy.old m l n (hm.trans_le hgrows), hx.old m l n hm]
  case new =>
    intro m l n hm hlink
    rw [hsize]
    rcases links_union.mp hlink with ⟨rfl, -, rfl | rfl⟩ | hlink
    · omega
    · omega
    · have hinner := hx.new_of_links hy hm hlink
      omega
  case start => exact ⟨hgrows.trans hgrows', Nat.lt_succ_self _⟩
  case finals =>
    intro f hf
    rw [hsize]
    rcases List.mem_append.mp hf with hf | hf
    · have hfinal := hx.finals_new f hf
      omega
    · have hfinal := hy.finals_new f hf
      omega

/-- One fragment or another recognizes the sum of the languages. -/
theorem Makes.union (hx : Makes before middle x L) (hy : Makes middle after y M) :
    Makes before (after.union x y).1 (after.union x y).2 (L + M) := by
  refine (hx.toPlaces.union hy.toPlaces).makes ?_
  have hgrows := hy.size_le
  have hleft : Encloses (Between before middle) middle.Links (after.union x y).1.Links
      fun _ _ => False := by
    refine hx.encloses fun m l n hm => ?_
    have hne : m ≠ after.size := (hm.2.trans_le hgrows).ne
    simp [links_union, hne, hy.old m l n hm.2]
  have hright : Encloses (Between middle after) after.Links (after.union x y).1.Links
      fun _ _ => False := by
    refine hy.encloses fun m l n hm => ?_
    simp [links_union, hm.2.ne]
  have henters : ∀ l n, (after.union x y).1.Links after.size l n ↔
      l = .epsilon ∧ (n = x.start ∨ n = y.start) := by
    intro l n
    simp [links_union, hy.bounded.not_links le_rfl]
  have hfirst : after.size ∉ x.finals ++ y.finals := by
    intro hf
    rcases List.mem_append.mp hf with hf | hf
    · exact absurd ((hx.finals_new _ hf).2.trans_le hgrows) (lt_irrefl _)
    · exact absurd (hy.finals_new _ hf).2 (lt_irrefl _)
  have hnotR : ∀ f, Between before middle f → f ∉ y.finals :=
    fun f hf h => absurd hf.2 (not_lt.mpr (hy.finals_new f h).1)
  have hnotL : ∀ f, Between middle after f → f ∉ x.finals :=
    fun f hf h => absurd (hx.finals_new f h).2 (not_lt.mpr hf.1)
  calc wordsFrom (after.union x y).1.Links after.size (· ∈ x.finals ++ y.finals)
      = wordsFrom middle.Links x.start (· ∈ x.finals) +
          wordsFrom after.Links y.start (· ∈ y.finals) := by
        refine wordsFrom_alternatives hleft hright henters hx.start_new hy.start_new hfirst ?_ ?_
        · exact fun f hf => by simp [hnotR f hf]
        · exact fun f hf => by simp [hnotL f hf]
    _ = L + M := by rw [hx.words_eq, hy.words_eq]

end Two

/-! ### Repetitions -/

section Repetition

variable {after : Arena} {x : Fragment}

/-- Repeating adds empty moves from where a repetition may begin or end to where it may go on. -/
theorem links_star {arena : Arena} {m n : Nat} {l : Label} :
    (arena.star x).1.Links m l n ↔
      (l = .epsilon ∧ (m = arena.size ∨ m ∈ x.finals) ∧ (n = x.start ∨ n = arena.size + 1)) ∨
        arena.Links m l n := by
  simp only [Arena.star, links_moves, links_link, links_addState]
  tauto

/-- Nothing leaves the last state of a repetition. -/
theorem Places.star_sink (hx : Places before after x) {l : Label} {n : Nat} :
    ¬(after.star x).1.Links (after.size + 1) l n := by
  intro hlink
  rcases links_star.mp hlink with ⟨-, hsource | hfinal, -⟩ | hlink
  · omega
  · exact absurd (hx.finals_new _ hfinal).2 (by omega)
  · exact absurd (hx.bounded _ _ _ hlink) (by omega)

/-- The repetition of a fragment is placed as the fragment was, with two more states behind it. -/
theorem Places.star (hx : Places before after x) :
    Places before (after.star x).1 (after.star x).2 := by
  have hsize : (after.star x).1.size = after.size + 2 := by simp [Arena.star]
  have hgrows := hx.size_le
  have hstart := hx.start_new
  refine ⟨hx.first_eq, ?old, ?new, ?start, ?finals⟩
  case old =>
    intro m l n hm
    have hnot : m ∉ x.finals := fun h => absurd (hx.finals_new m h).1 (not_le.mpr hm)
    have hne : m ≠ after.size := by omega
    simp [links_star, hnot, hne, hx.old m l n hm]
  case new =>
    intro m l n hm hlink
    rw [hsize]
    rcases links_star.mp hlink with ⟨-, hsource, htarget⟩ | hlink
    · have hsource' : m ≤ after.size := by
        rcases hsource with rfl | hfinal
        · exact le_rfl
        · exact (hx.finals_new m hfinal).2.le
      omega
    · have hinner := hx.new m l n hm hlink
      omega
  case start =>
    rw [hsize]
    exact ⟨hgrows, Nat.lt_add_of_pos_right Nat.two_pos⟩
  case finals =>
    intro f hf
    obtain rfl : f = after.size + 1 := List.mem_singleton.mp hf
    omega

/-- A fragment between a new first and a new last state, with empty moves that repeat it,
recognizes the repetition of its language. -/
theorem Makes.star (hx : Makes before after x L) :
    Makes before (after.star x).1 (after.star x).2 L∗ := by
  refine hx.toPlaces.star.makes ?_
  have hinside : Encloses (Between before after) after.Links (after.star x).1.Links
      fun f g => f ∈ x.finals ∧ (g = x.start ∨ g = after.size + 1) := by
    refine hx.encloses fun m l n hm => ?_
    have hne : m ≠ after.size := hm.2.ne
    rw [links_star]
    tauto
  have henters : ∀ l n, (after.star x).1.Links after.size l n ↔
      l = .epsilon ∧ (n = x.start ∨ n = after.size + 1) := by
    intro l n
    simp [links_star, hx.bounded.not_links le_rfl]
  have hlast : ¬Between before after (after.size + 1) :=
    fun h => absurd h.2 (not_lt.mpr (Nat.le_succ _))
  calc wordsFrom (after.star x).1.Links after.size (· ∈ [after.size + 1])
      = wordsFrom (after.star x).1.Links after.size (· = after.size + 1) := by
        simp only [List.mem_singleton]
    _ = (wordsFrom after.Links x.start (· ∈ x.finals))∗ :=
        wordsFrom_repetition hinside henters hx.start_new hlast (Nat.succ_ne_self _)
          fun _ _ => hx.star_sink
    _ = L∗ := by rw [hx.words_eq]

/-- After a duplication, an arena has the transitions of the copy, which are those of the fragment
moved on, besides those that were there. -/
theorem links_duplicate {m n : Nat} {l : Label} : (after.duplicate x).1.Links m l n ↔
    (∃ m' n', x.first ≤ m' ∧ after.Links m' l n' ∧ m' + (after.size - x.first) = m ∧
      n' + (after.size - x.first) = n) ∨ after.Links m l n := links_copyFrom

/-- The copy of a fragment is placed behind the fragment. -/
theorem Places.duplicate (hx : Places before after x) :
    Places after (after.duplicate x).1 (after.duplicate x).2 := by
  have hgrows := hx.size_le
  have hfirst := hx.first_eq
  have hstart := hx.start_new
  have hsize : (after.duplicate x).1.size = after.size + (after.size - x.first) := rfl
  refine ⟨rfl, ?old, ?new, ?start, ?finals⟩
  case old =>
    intro m l n hm
    refine links_duplicate.trans (or_iff_right ?_)
    intro h
    obtain ⟨m', n', hm', -, rfl, -⟩ := h
    omega
  case new =>
    intro m l n hm hlink
    rcases links_duplicate.mp hlink with ⟨m', n', hm', hinner, rfl, rfl⟩ | hlink
    · have hcopied := hx.new m' l n' (hfirst ▸ hm') hinner
      omega
    · exact absurd (hx.bounded m l n hlink) (not_lt.mpr hm)
  case start =>
    change after.size ≤ x.start + (after.size - x.first) ∧ x.start + (after.size - x.first) < _
    omega
  case finals =>
    intro f hf
    obtain ⟨g, hg, rfl⟩ := List.mem_map.mp hf
    have hfinal := hx.finals_new g hg
    omega

/-- The transitions of copied states are those of their originals, at a distance from them. -/
theorem Places.links_copy (hx : Places before after x) {m n : Nat} {l : Label}
    (hm : Between before after m) :
    (after.duplicate x).1.Links (m + (after.size - x.first)) l n ↔
      ∃ n', n' + (after.size - x.first) = n ∧ after.Links m l n' := by
  have hfirst := hx.first_eq
  obtain ⟨hm, hm'⟩ := hm
  rw [links_duplicate]
  constructor
  · intro h
    rcases h with ⟨m', n', -, hlink, hsame, rfl⟩ | hold
    · exact ⟨n', rfl, Nat.add_right_cancel hsame ▸ hlink⟩
    · exact absurd hold (hx.bounded.not_links (by omega))
  · intro h
    obtain ⟨n', rfl, hlink⟩ := h
    exact .inl ⟨m, n', hfirst ▸ hm, hlink, rfl, rfl⟩

/-- The copy of a fragment recognizes the same language. -/
theorem Makes.duplicate (hx : Makes before after x L) :
    Makes after (after.duplicate x).1 (after.duplicate x).2 L := by
  refine hx.toPlaces.duplicate.makes ?_
  have hstays : ∀ m l n, Between before after m → after.Links m l n → Between before after n :=
    fun m l n hm hlink => (hx.new m l n hm.1 hlink).2
  have hcopies : ∀ m l n, Between before after m →
      ((after.duplicate x).1.Links (m + (after.size - x.first)) l n ↔
        ∃ n', n' + (after.size - x.first) = n ∧ after.Links m l n') :=
    fun _ _ _ hm => hx.toPlaces.links_copy hm
  have hfinals : ∀ f, Between before after f →
      (f + (after.size - x.first) ∈ x.finals.map (· + (after.size - x.first)) ↔ f ∈ x.finals) :=
    fun _ _ => List.mem_map_of_injective (add_left_injective _)
  exact (wordsFrom_map (· + (after.size - x.first)) (Between before after) hstays hcopies hfinals
    hx.start_new).trans hx.words_eq

/-- One or more repetitions of a fragment are placed as the fragment was, with a repeated copy
behind it. -/
theorem Places.plus (hx : Places before after x) :
    Places before (after.plus x).1 (after.plus x).2 := hx.concat hx.duplicate.star

/-- A fragment that may be left out is placed as the fragment was, with the one for the empty word
behind it. -/
theorem Places.optional (hx : Places before after x) :
    Places before (after.optional x).1 (after.optional x).2 :=
  hx.union (makes_epsilon hx.bounded).toPlaces

/-- A fragment and the repetition of its copy recognize one or more words of its language. -/
theorem Makes.plus (hx : Makes before after x L) :
    Makes before (after.plus x).1 (after.plus x).2 (L * L∗) :=
  hx.concat hx.duplicate.star

/-- A fragment or a single state recognize the words of the language and the empty word. -/
theorem Makes.optional (hx : Makes before after x L) :
    Makes before (after.optional x).1 (after.optional x).2 (L + 1) :=
  hx.union (makes_epsilon hx.bounded)

end Repetition

end Arena

/-- The fragment of an expression recognizes the language of the expression. -/
theorem Regex.makes_of_assemble {alphabet : Alphabet} {x : Regex} {arena : Arena}
    {made : Arena × Fragment} (h : x.assemble alphabet arena = .ok made)
    (hbounded : arena.Bounded) : arena.Makes made.1 made.2 x.language := by
  induction x generalizing arena made with
  | literal a =>
    rw [assemble] at h
    split at h
    · obtain rfl := Except.ok.inj h
      exact Arena.makes_literal hbounded a
    · contradiction
  | epsilon =>
    obtain rfl := Except.ok.inj h
    exact Arena.makes_epsilon hbounded
  | empty =>
    obtain rfl := Except.ok.inj h
    exact Arena.makes_nothing hbounded
  | union l r ihl ihr =>
    obtain ⟨left, hl, h⟩ := exists_of_bind_eq_ok h
    obtain ⟨right, hr, h⟩ := exists_of_bind_eq_ok h
    obtain rfl := Except.ok.inj h
    have hleft := ihl hl hbounded
    exact hleft.union (ihr hr hleft.bounded)
  | concat l r ihl ihr =>
    obtain ⟨left, hl, h⟩ := exists_of_bind_eq_ok h
    obtain ⟨right, hr, h⟩ := exists_of_bind_eq_ok h
    obtain rfl := Except.ok.inj h
    have hleft := ihl hl hbounded
    exact hleft.concat (ihr hr hleft.bounded)
  | star x ih =>
    obtain ⟨inner, hx, h⟩ := exists_of_bind_eq_ok h
    obtain rfl := Except.ok.inj h
    exact (ih hx hbounded).star
  | plus x ih =>
    obtain ⟨inner, hx, h⟩ := exists_of_bind_eq_ok h
    obtain rfl := Except.ok.inj h
    exact (ih hx hbounded).plus
  | optional x ih =>
    obtain ⟨inner, hx, h⟩ := exists_of_bind_eq_ok h
    obtain rfl := Except.ok.inj h
    exact (ih hx hbounded).optional
  | group x ih => exact ih h hbounded

end RegularLanguages
