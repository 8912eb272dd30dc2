import RegularLanguages.Proofs.Expressions

/-!
# Fragments on the stack

Every fragment has been put behind the states that were there before it, and an operation only takes
the uppermost fragments off the stack. So at any time the fragments on the stack divide the states
among them, each of them from its first state up to the first state of the fragment above it, and no
transition leads from one to another. Then all that there is from the first state of the uppermost
fragment on belongs to this fragment, and a copy of all that is a copy of the fragment. The number
of states is found by recursion on the expression.
-/

namespace RegularLanguages

namespace Arena

/-- The states from the first one of a fragment up to the last one in front of `limit` are those of
the fragment: it is entered and left there, and no transition leads out. -/
structure Occupies (arena : Arena) (x : Fragment) (limit : Nat) : Prop where
  start_mem : x.first ≤ x.start ∧ x.start < limit
  finals_mem : ∀ f ∈ x.finals, x.first ≤ f ∧ f < limit
  links_mem : ∀ m l n, x.first ≤ m → m < limit → arena.Links m l n → x.first ≤ n ∧ n < limit

/-- The fragments, last one first, divide the states in front of `limit` among them: the last one
occupies those up to `limit`, the others those up to its first state. -/
inductive Tiles (arena : Arena) : (limit : Nat) → List Fragment → Prop
  | nil : Tiles arena 0 []
  | cons {x : Fragment} {limit : Nat} {rest : List Fragment} (hx : arena.Occupies x limit)
      (hrest : Tiles arena x.first rest) : Tiles arena limit (x :: rest)

/-- The fragments with the ends of their states. -/
def regions : (limit : Nat) → List Fragment → List (Fragment × Nat)
  | _, [] => []
  | limit, x :: rest => (x, limit) :: regions x.first rest

/-- A fragment has been copied: as many states have been added as it has, and these are the states
of the copy. Their transitions are those of their originals, at a distance from them, and the
transitions of older states are the same. -/
structure Copies (before : Arena) (x : Fragment) (after : Arena) (y : Fragment) : Prop where
  size_eq : after.size = before.size + (before.size - x.first)
  first_eq : y.first = before.size
  start_eq : y.start = x.start + (before.size - x.first)
  finals_eq : y.finals = x.finals.map (· + (before.size - x.first))
  occupies : after.Occupies y after.size
  bounded : after.Bounded
  old : ∀ m l n, m < before.size → (after.Links m l n ↔ before.Links m l n)
  new : ∀ m l n, x.first ≤ m → m < before.size →
    (after.Links (m + (before.size - x.first)) l n ↔
      ∃ n', n' + (before.size - x.first) = n ∧ before.Links m l n')

variable {before after arena arena' : Arena} {x : Fragment} {fragments rest : List Fragment}
  {limit m : Nat}

/-- A fragment has a state, so that it begins in front of the limit. -/
theorem Occupies.first_lt (h : arena.Occupies x limit) : x.first < limit :=
  h.start_mem.1.trans_lt h.start_mem.2

/-- A fragment that has been added occupies the new states. -/
theorem Places.occupies (h : Places before after x) : after.Occupies x after.size where
  start_mem := h.first_eq ▸ h.start_new
  finals_mem := h.first_eq ▸ h.finals_new
  links_mem m l n hm _ hlink := by
    rw [h.first_eq] at hm ⊢
    exact (h.new m l n hm hlink).2

/-- Whether fragments divide states depends on the transitions of these states. -/
theorem Tiles.congr (h : arena.Tiles limit fragments)
    (hsame : ∀ m l n, m < limit → (arena'.Links m l n ↔ arena.Links m l n)) :
    arena'.Tiles limit fragments := by
  induction h with
  | nil => exact .nil
  | @cons x limit rest hx _ ih =>
    refine .cons ⟨hx.start_mem, hx.finals_mem, fun m l n hm hlimit hlink => ?_⟩
      (ih fun m l n hm => hsame m l n (hm.trans hx.first_lt))
    exact hx.links_mem m l n hm hlimit ((hsame m l n hlimit).mp hlink)

/-- No fragment has a state beyond the limit. -/
theorem Tiles.le_of_mem_regions (h : arena.Tiles limit fragments) {region : Fragment × Nat}
    (hmem : region ∈ regions limit fragments) : region.2 ≤ limit := by
  induction h with
  | nil => contradiction
  | @cons x limit rest hx _ ih =>
    rcases List.mem_cons.mp hmem with rfl | hmem
    · exact le_rfl
    · exact (ih hmem).trans hx.first_lt.le

/-- Every state belongs to exactly one of the fragments. -/
theorem Tiles.existsUnique_region (h : arena.Tiles limit fragments) (hm : m < limit) :
    ∃! i : Nat, ∃ y stop,
      (regions limit fragments)[i]? = some (y, stop) ∧ y.first ≤ m ∧ m < stop := by
  induction h with
  | nil => omega
  | @cons x limit rest hx hrest ih =>
    by_cases hbelow : m < x.first
    · obtain ⟨i, hi, hunique⟩ := ih hbelow
      refine ⟨i + 1, hi, fun j hj => ?_⟩
      obtain ⟨y, stop, hj, hfirst, hstop⟩ := hj
      cases j with
      | zero =>
        obtain ⟨rfl, rfl⟩ : x = y ∧ limit = stop := by simpa [regions] using hj
        omega
      | succ j => exact congrArg Nat.succ (hunique j ⟨y, stop, hj, hfirst, hstop⟩)
    · refine ⟨0, ⟨x, limit, rfl, not_lt.mp hbelow, hm⟩, fun j hj => ?_⟩
      obtain ⟨y, stop, hj, -, hstop⟩ := hj
      cases j with
      | zero => rfl
      | succ j =>
        have hle := hrest.le_of_mem_regions (List.mem_of_getElem? (l := regions x.first rest) hj)
        dsimp only at hle
        omega

/-- Fragments that have been added one after another, last one first. -/
inductive Stacks : Arena → List Fragment → Prop
  | nil : Stacks .empty []
  | cons {before after : Arena} {x : Fragment} {rest : List Fragment} (hrest : Stacks before rest)
      (hx : Places before after x) : Stacks after (x :: rest)

namespace Stacks

/-- In an arena of fragments that were added one after another, no transition leaves the numbered
states. -/
theorem bounded (h : Stacks arena fragments) : arena.Bounded := by
  cases h with
  | nil => exact bounded_empty
  | cons _ hx => exact hx.bounded

/-- Fragments that have been added one after another divide the states among them. -/
theorem tiles (h : Stacks arena fragments) : arena.Tiles arena.size fragments := by
  induction h with
  | nil => exact .nil
  | cons _ hx ih => exact .cons hx.occupies (hx.first_eq ▸ ih.congr hx.old)

/-- The last fragment on the stack is copied by copying all states from its first one on. -/
theorem copies (h : Stacks arena (x :: rest)) :
    arena.Copies x (arena.duplicate x).1 (arena.duplicate x).2 := by
  cases h with
  | cons _ hx => exact {
      size_eq := rfl
      first_eq := rfl
      start_eq := rfl
      finals_eq := rfl
      occupies := hx.duplicate.occupies
      bounded := hx.duplicate.bounded
      old := hx.duplicate.old
      new := fun m l n hm hlimit => hx.links_copy ⟨hx.first_eq ▸ hm, hlimit⟩ }

end Stacks

end Arena

namespace Assembly

variable {alphabet : Alphabet} {s s' : Assembly}

/-- What has been made is made of fragments that have been added one after another. -/
def Stacked (s : Assembly) : Prop := s.arena.Stacks s.fragments

/-- The fragments on the stack divide the states among them, and what there is from the first state
of the last fragment on is copied as a copy of this fragment. -/
structure Tiled (s : Assembly) : Prop where
  bounded : s.arena.Bounded
  tiles : s.arena.Tiles s.arena.size s.fragments
  covers : ∀ m < s.arena.size, ∃! i : Nat, ∃ y stop,
    (Arena.regions s.arena.size s.fragments)[i]? = some (y, stop) ∧ y.first ≤ m ∧ m < stop
  copies : ∀ x rest, s.fragments = x :: rest →
    s.arena.Copies x (s.arena.duplicate x).1 (s.arena.duplicate x).2

namespace Stacked

/-- Fragments that were added one after another divide the states among them, and the last of them
is copied as a whole. -/
theorem tiled (h : s.Stacked) : s.Tiled where
  bounded := h.bounded
  tiles := h.tiles
  covers _ hm := h.tiles.existsUnique_region hm
  copies x rest hfragments := by
    rw [Stacked, hfragments] at h
    exact h.copies

/-- An assembly starts with no fragments on its stack. -/
theorem start : start.Stacked := .nil

/-- A new fragment is put behind all states. -/
theorem push (h : s.Stacked) {made : Arena × Fragment}
    (hmade : s.arena.Places made.1 made.2) : (push s.fragments made).Stacked := .cons h hmade

/-- An operation on the last fragment leaves those below alone. -/
theorem unary {operation : Arena → Fragment → Arena × Fragment}
    (hoperation : ∀ {before after x}, Arena.Places before after x →
      before.Places (operation after x).1 (operation after x).2)
    (h : s.Stacked) (hs : s.unary operation = .ok s') : s'.Stacked := by
  obtain ⟨arena, fragments⟩ := s
  cases h with
  | nil => contradiction
  | cons hrest hx =>
    obtain rfl := Except.ok.inj hs
    exact .cons hrest (hoperation hx)

/-- An operation on the last two fragments leaves those below alone. -/
theorem binary {operation : Arena → Fragment → Fragment → Arena × Fragment}
    (hoperation : ∀ {before middle after x y}, Arena.Places before middle x →
      middle.Places after y → before.Places (operation after x y).1 (operation after x y).2)
    (h : s.Stacked) (hs : s.binary operation = .ok s') : s'.Stacked := by
  obtain ⟨arena, fragments⟩ := s
  cases h with
  | nil => contradiction
  | cons hrest hy =>
    cases hrest with
    | nil => contradiction
    | cons hrest hx =>
      obtain rfl := Except.ok.inj hs
      exact .cons hrest (hoperation hx hy)

/-- One operation keeps the fragments stacked. -/
theorem step (h : s.Stacked) {operation : FragmentOperation}
    (hs : s.step alphabet operation = .ok s') : s'.Stacked := by
  cases operation with
  | literal a =>
    rw [Assembly.step] at hs
    split at hs
    · obtain rfl := Except.ok.inj hs
      exact h.push (Arena.makes_literal h.bounded a).toPlaces
    · contradiction
  | epsilon =>
    obtain rfl := Except.ok.inj hs
    exact h.push (Arena.makes_epsilon h.bounded).toPlaces
  | empty =>
    obtain rfl := Except.ok.inj hs
    exact h.push (Arena.makes_nothing h.bounded).toPlaces
  | union => exact h.binary Arena.Places.union hs
  | concat => exact h.binary Arena.Places.concat hs
  | star => exact h.unary Arena.Places.star hs
  | plus => exact h.unary Arena.Places.plus hs
  | optional => exact h.unary Arena.Places.optional hs

/-- A program keeps the fragments stacked. -/
theorem run (h : s.Stacked) {operations : List FragmentOperation}
    (hs : s.run alphabet operations = .ok s') : s'.Stacked := by
  induction operations generalizing s with
  | nil =>
    obtain rfl := Except.ok.inj hs
    exact h
  | cons operation operations ih =>
    rw [Assembly.run] at hs
    split at hs
    · contradiction
    · rename_i hstep
      exact ih (h.step hstep) hs

/-- The fragments are stacked when the parts of a node have been combined. -/
theorem combine (h : s.Stacked) {x : Regex} (hs : s.combine x = .ok s') : s'.Stacked := by
  cases x with
  | union => exact h.binary Arena.Places.union (of_mapError_eq_ok hs)
  | concat => exact h.binary Arena.Places.concat (of_mapError_eq_ok hs)
  | star => exact h.unary Arena.Places.star (of_mapError_eq_ok hs)
  | plus => exact h.unary Arena.Places.plus (of_mapError_eq_ok hs)
  | optional => exact h.unary Arena.Places.optional (of_mapError_eq_ok hs)
  | group => exact h.unary id (of_mapError_eq_ok hs)
  | literal | epsilon | empty => contradiction

/-- One visit keeps the fragments stacked. -/
theorem visit (h : s.Stacked) {v : Visit} (hs : s.visit alphabet v = .ok s') : s'.Stacked := by
  cases v with
  | enter x =>
    cases x with
    | literal a => exact h.step (of_mapError_eq_ok hs)
    | epsilon =>
      obtain rfl := Except.ok.inj hs
      exact h.push (Arena.makes_epsilon h.bounded).toPlaces
    | empty =>
      obtain rfl := Except.ok.inj hs
      exact h.push (Arena.makes_nothing h.bounded).toPlaces
    | union | concat | star | plus | optional | group =>
      obtain rfl := Except.ok.inj hs
      exact h
  | leave x => exact h.combine hs

end Stacked

/-- What has been made on a walk after some visits, and the visits that are left then. -/
inductive WalksTo (alphabet : Alphabet) (s : Assembly) (visits : List Visit) :
    Assembly → List Visit → Prop
  | refl : WalksTo alphabet s visits s visits
  | visit {t t' : Assembly} {v : Visit} {left : List Visit}
      (h : WalksTo alphabet s visits t (v :: left)) (hv : t.visit alphabet v = .ok t') :
      WalksTo alphabet s visits t' (v.next ++ left)

namespace WalksTo

variable {visits left : List Visit}

/-- The walk goes on with the visits that are left. -/
theorem walk_eq (h : WalksTo alphabet s visits s' left) :
    s.walk alphabet visits = s'.walk alphabet left := by
  induction h with
  | refl => rfl
  | visit _ hv ih =>
    rw [ih, walk, hv]
    rfl

/-- The fragments are stacked after any number of visits. -/
theorem stacked (h : WalksTo alphabet s visits s' left) (hs : s.Stacked) : s'.Stacked := by
  induction h with
  | refl => exact hs
  | visit _ hv ih => exact ih.visit hv

end WalksTo

end Assembly

namespace Regex

variable {alphabet : Alphabet} {x : Regex}

/-- The number of states of the automaton. -/
def stateCount : Regex → Nat
  | literal _ => 2
  | epsilon | empty => 1
  | union l r => l.stateCount + r.stateCount + 1
  | concat l r => l.stateCount + r.stateCount
  | star x | optional x => x.stateCount + 2
  | plus x => 2 * x.stateCount + 2
  | group x => x.stateCount

/-- The fragment of an expression is put behind all states, and has as many as the expression
needs. -/
theorem size_of_assemble {arena : Arena} {made : Arena × Fragment}
    (h : x.assemble alphabet arena = .ok made) :
    made.2.first = arena.size ∧ made.1.size = arena.size + x.stateCount := by
  induction x generalizing arena made with
  | literal a =>
    rw [assemble] at h
    split at h
    · obtain rfl := Except.ok.inj h
      exact ⟨rfl, rfl⟩
    · contradiction
  | epsilon | empty =>
    obtain rfl := Except.ok.inj h
    exact ⟨rfl, rfl⟩
  | union l r ihl ihr =>
    obtain ⟨left, hl, h⟩ := exists_of_bind_eq_ok h
    obtain ⟨right, hr, h⟩ := exists_of_bind_eq_ok h
    obtain rfl := Except.ok.inj h
    obtain ⟨hfirst, hsize⟩ := ihl hl
    obtain ⟨-, hsize'⟩ := ihr hr
    refine ⟨hfirst, ?_⟩
    simp only [Arena.union, Arena.size_link, Arena.size_addState, stateCount]
    omega
  | concat l r ihl ihr =>
    obtain ⟨left, hl, h⟩ := exists_of_bind_eq_ok h
    obtain ⟨right, hr, h⟩ := exists_of_bind_eq_ok h
    obtain rfl := Except.ok.inj h
    obtain ⟨hfirst, hsize⟩ := ihl hl
    obtain ⟨-, hsize'⟩ := ihr hr
    refine ⟨hfirst, ?_⟩
    simp only [Arena.concat, Arena.size_moves, stateCount]
    omega
  | star x ih =>
    obtain ⟨inner, hx, h⟩ := exists_of_bind_eq_ok h
    obtain rfl := Except.ok.inj h
    obtain ⟨hfirst, hsize⟩ := ih hx
    refine ⟨hfirst, ?_⟩
    simp only [Arena.star, Arena.size_moves, Arena.size_link, Arena.size_addState, stateCount]
    omega
  | plus x ih =>
    obtain ⟨inner, hx, h⟩ := exists_of_bind_eq_ok h
    obtain rfl := Except.ok.inj h
    obtain ⟨hfirst, hsize⟩ := ih hx
    refine ⟨hfirst, ?_⟩
    simp only [Arena.plus, Arena.duplicate, Arena.copyFrom, Arena.star, Arena.concat,
      Arena.size_moves, Arena.size_link, Arena.size_addState, stateCount]
    omega
  | optional x ih =>
    obtain ⟨inner, hx, h⟩ := exists_of_bind_eq_ok h
    obtain rfl := Except.ok.inj h
    obtain ⟨hfirst, hsize⟩ := ih hx
    refine ⟨hfirst, ?_⟩
    simp only [Arena.optional, Arena.epsilon, Arena.union, Arena.size_link, Arena.size_addState,
      stateCount]
    omega
  | group x ih => exact ih h

/-- The automaton has the states with the first numbers. -/
theorem states_of_toAutomaton {E : EpsilonNFA} (h : x.toAutomaton alphabet = .ok E) :
    E.states = .ofList ((List.range x.stateCount).map Assembly.stateName) := by
  obtain ⟨made, hmade, hfinish⟩ := toAutomaton_eq_ok_iff.mp h
  obtain rfl := Except.ok.inj hfinish
  have hsize := (size_of_assemble hmade).2
  rw [Arena.empty, Nat.zero_add] at hsize
  rw [← hsize]

/-- Whatever expression is compiled, after any number of visits on the walk around it the fragments
on the stack divide the states among them, so that copying what there is from the first state of
the last fragment on copies this fragment; the same holds after any program. The automaton, which
is made exactly if all literals belong to the alphabet, has as many states as the recurrence says,
and these are the ones with the first numbers. -/
theorem fragments_divide_states (alphabet : Alphabet) (x : Regex) :
    (∀ s left, Assembly.start.WalksTo alphabet [.enter x] s left →
      Assembly.start.walk alphabet [.enter x] = s.walk alphabet left ∧ s.Tiled) ∧
    (∀ operations s, Assembly.start.run alphabet operations = .ok s → s.Tiled) ∧
    ((∃ E, x.toAutomaton alphabet = .ok E) ↔ ∀ a ∈ x.literals, a ∈ alphabet) ∧
    ∀ E, x.toAutomaton alphabet = .ok E →
      (∀ q, q ∈ E.states ↔ ∃ n < x.stateCount, Assembly.stateName n = q) ∧
        E.states.size = x.stateCount := by
  refine ⟨fun s left h => ⟨h.walk_eq, (h.stacked .start).tiled⟩,
    fun operations s h => (Assembly.Stacked.start.run h).tiled, ⟨?_, ?_⟩, ?_⟩
  · intro h
    obtain ⟨E, hE⟩ := h
    exact mem_of_toAutomaton hE
  · intro hliterals
    obtain ⟨E, hE, -⟩ := x.exists_toAutomaton alphabet hliterals
    exact ⟨E, hE⟩
  · intro E hE
    rw [states_of_toAutomaton hE]
    refine ⟨fun q => by simp, ?_⟩
    have hnodup : ((List.range x.stateCount).map Assembly.stateName).Nodup :=
      List.nodup_range.map Assembly.stateName_injective
    rw [StateSet.ofList, FiniteSet.size_ofList hnodup, List.length_map, List.length_range]

/-- One or more repetitions of two symbols. When a walk has made both symbols and not yet joined
them, and when a program has joined them, the fragments divide the states. The automaton has four
states for each copy of the pair, and two for the repetition. -/
theorem fragments_divide_states_of_repeated_pair :
    let pair := concat (literal 'a') (literal 'b')
    ∃ s t E,
      Assembly.start.WalksTo (.ofText "ab") [.enter (plus pair)] s
        [.leave pair, .leave (plus pair)] ∧ s.fragments.length = 2 ∧ s.Tiled ∧
      Assembly.start.run (.ofText "ab") (pair.program []) = .ok t ∧ t.fragments.length = 1 ∧
        t.Tiled ∧
      (plus pair).toAutomaton (.ofText "ab") = .ok E ∧ E.states.size = 10 := by
  intro pair
  let first : Assembly := .push [] (Arena.empty.literal 'a')
  let both : Assembly := .push first.fragments (first.arena.literal 'b')
  let joined : Assembly :=
    .push [] (both.arena.concat ⟨0, 0, [1]⟩ ⟨2, 2, [3]⟩)
  obtain ⟨hwalk, hrun, hmade, hstates⟩ := fragments_divide_states (.ofText "ab") (plus pair)
  have hstart : Assembly.start.WalksTo (.ofText "ab") [.enter (plus pair)] .start
      [.enter (plus pair)] := .refl
  have hentered : Assembly.start.WalksTo (.ofText "ab") [.enter (plus pair)] .start
      [.enter (literal 'a'), .enter (literal 'b'), .leave pair, .leave (plus pair)] :=
    (hstart.visit rfl).visit rfl
  have hboth : Assembly.start.WalksTo (.ofText "ab") [.enter (plus pair)] both
      [.leave pair, .leave (plus pair)] :=
    have hfirst : Assembly.start.visit (.ofText "ab") (.enter (literal 'a')) = .ok first := by
      decide +kernel
    (hentered.visit hfirst).visit (by decide +kernel)
  have hprogram : Assembly.start.run (.ofText "ab") (pair.program []) = .ok joined := by
    decide +kernel
  obtain ⟨E, hE⟩ := hmade.mpr (by simp [pair, literals, Alphabet.ofText])
  exact ⟨both, joined, E, hboth, rfl, (hwalk _ _ hboth).2, hprogram, rfl, hrun _ _ hprogram,
    hE, (hstates E hE).2⟩

end Regex

end RegularLanguages
