import RegularLanguages.Proofs.Draws
import RegularLanguages.Random.Automata

/-!
# Sprouts

A sprout grows by one transition at a time. A transition leads to a state that has been made or to a
new one, and a new state is only made while there is room, so each state but the first was entered
from an earlier one, and there are never more states than there is room for. So the loop that
expands the states, one after another, ends when all of them have been expanded, and the states that
were made last are among them.
-/

namespace RegularLanguages

namespace Random

variable {γ : Type} {draws : Draws γ}

/-- The first member of a list for which something happens belongs to the list. -/
theorem always_firstChosen? {α : Type} (p : Float) (items : List α) :
    Always (firstChosen? draws p items) fun found => ∀ x, found = some x → x ∈ items := by
  induction items with
  | nil => exact .pure fun x h => by contradiction
  | cons x items ih =>
    refine .bind (.trivial _) fun taken _ => ?_
    split
    · refine .pure fun y hy => ?_
      obtain rfl := Option.some.inj hy
      exact List.mem_cons_self
    · exact fun g y hy => List.mem_cons_of_mem x (ih g y hy)

namespace Sprout

variable {p : Float} {room size current : Nat} {symbols done : List Symbol} {s t : Sprout}

/-! ## One transition -/

/-- A transition may lead to state `q` and leave the sprout, which had `size` states, with `size'`:
the state has been made before, or it is a new one for which there is room. -/
def Leads (room size q size' : Nat) : Prop :=
  q < size ∧ size' = size ∨ q = size ∧ size < room ∧ size' = size + 1

namespace Leads

variable {q size' : Nat}

/-- A transition takes no states away from a sprout. -/
theorem le (h : Leads room size q size') : size ≤ size' := by
  rcases h with ⟨-, rfl⟩ | ⟨-, -, rfl⟩ <;> omega

/-- A transition makes a new state only if there is room. -/
theorem le_room (h : Leads room size q size') (hroom : size ≤ room) : size' ≤ room := by
  rcases h with ⟨-, rfl⟩ | ⟨-, hlt, rfl⟩ <;> omega

/-- A transition leads to a state of the sprout that it leaves. -/
theorem lt (h : Leads room size q size') : q < size' := by
  rcases h with ⟨hlt, rfl⟩ | ⟨rfl, -, rfl⟩ <;> omega

/-- Only the state that the transition leads to may be new. -/
theorem eq_of_le {r : Nat} (h : Leads room size q size') (hr : r < size') (hnew : size ≤ r) :
    r = q := by
  rcases h with ⟨-, rfl⟩ | ⟨rfl, -, rfl⟩ <;> omega

end Leads

/-- A missing transition leads to a state that has been made, perhaps just now. -/
theorem always_target (hdraws : draws.Lawful) (p : Float) (room : Nat) (hcurrent : current < size) :
    Always (target draws p room size current) fun found => Leads room size found.1 found.2 := by
  refine .bind (always_firstChosen? p _) fun found hfound => ?_
  split
  · rename_i q
    have hq : q < current + 1 := List.mem_range.mp (hfound q rfl)
    exact .pure (.inl ⟨hq.trans_le hcurrent, rfl⟩)
  · split
    · rename_i hroom
      exact .pure (.inr ⟨rfl, hroom, rfl⟩)
    · exact .bind (fun g => hdraws size g (by omega)) fun q hq => .pure (.inl ⟨hq, rfl⟩)

/-- The states before `current` have one transition on each of the symbols, state `current` has one
on each of those that are done, and there are no other transitions. They lead between states that
have been made, each of which but the first was entered from an earlier one. -/
structure Tended (room : Nat) (symbols : List Symbol) (current : Nat) (done : List Symbol)
    (s : Sprout) : Prop where
  size_pos : 0 < s.size
  size_le : s.size ≤ room
  current_le : current ≤ s.size
  exists_iff : ∀ q a, (∃ r, (q, a, r) ∈ s.triples) ↔
    q < current ∧ a ∈ symbols ∨ q = current ∧ a ∈ done
  unique : ∀ q a r r', (q, a, r) ∈ s.triples → (q, a, r') ∈ s.triples → r' = r
  target_lt : ∀ q a r, (q, a, r) ∈ s.triples → r < s.size
  entered : ∀ q < s.size, 0 < q → ∃ p < q, ∃ a, (p, a, q) ∈ s.triples

namespace Tended

/-- One state, and nothing is expanded. -/
theorem start (hroom : 0 < room) (symbols : List Symbol) :
    Tended room symbols 0 [] ⟨1, []⟩ where
  size_pos := Nat.one_pos
  size_le := hroom
  current_le := Nat.zero_le 1
  exists_iff := by simp
  unique := by simp
  target_lt := by simp
  entered := fun q hq hpos => absurd hq (Nat.not_lt.mpr hpos)

/-- A transition is added on a symbol that is not done yet. -/
theorem cons {a : Symbol} {q size' : Nat} (h : s.Tended room symbols current done)
    (hcurrent : current < s.size) (ha : a ∉ done) (hleads : Leads room s.size q size') :
    Tended room symbols current (done ++ [a]) ⟨size', (current, a, q) :: s.triples⟩ := by
  have hnone (r : Nat) : (current, a, r) ∉ s.triples := by
    intro hmem
    rcases (h.exists_iff current a).mp ⟨r, hmem⟩ with ⟨hlt, -⟩ | ⟨-, hdone⟩
    · exact absurd hlt (Nat.lt_irrefl current)
    · exact ha hdone
  refine ⟨h.size_pos.trans_le hleads.le, hleads.le_room h.size_le,
    h.current_le.trans hleads.le, fun p b => ?treated, fun p b r r' hr hr' => ?unique,
    fun p b r hr => ?target, fun r hr hpos => ?entered⟩
  case treated =>
    have hold := h.exists_iff p b
    simp only [List.mem_cons, Prod.mk.injEq, List.mem_append, List.not_mem_nil, or_false]
    grind
  case unique =>
    rcases List.mem_cons.mp hr with hnew | hold <;> rcases List.mem_cons.mp hr' with hnew' | hold'
    · exact (Prod.mk.inj (Prod.mk.inj hnew').2).2.trans (Prod.mk.inj (Prod.mk.inj hnew).2).2.symm
    · obtain ⟨rfl, rfl, -⟩ := by simpa using hnew
      exact absurd hold' (hnone r')
    · obtain ⟨rfl, rfl, -⟩ := by simpa using hnew'
      exact absurd hold (hnone r)
    · exact h.unique p b r r' hold hold'
  case target =>
    rcases List.mem_cons.mp hr with hnew | hold
    · obtain ⟨-, -, rfl⟩ := by simpa using hnew
      exact hleads.lt
    · exact (h.target_lt p b r hold).trans_le hleads.le
  case entered =>
    by_cases hold : r < s.size
    · obtain ⟨p, hp, b, hmem⟩ := h.entered r hold hpos
      exact ⟨p, hp, b, List.mem_cons_of_mem _ hmem⟩
    · -- The state is the new one, which the new transition enters.
      obtain rfl := hleads.eq_of_le hr (Nat.not_lt.mp hold)
      exact ⟨current, by omega, a, List.mem_cons_self⟩

/-- A state with transitions on all symbols has been expanded. -/
theorem next (h : s.Tended room symbols current symbols) (hcurrent : current < s.size) :
    s.Tended room symbols (current + 1) [] where
  size_pos := h.size_pos
  size_le := h.size_le
  current_le := hcurrent
  exists_iff := by
    intro q a
    have hbefore : q < current + 1 ↔ q < current ∨ q = current := Nat.lt_succ_iff_lt_or_eq
    rw [h.exists_iff, hbefore]
    simp only [List.not_mem_nil, and_false, or_false, or_and_right]
  unique := h.unique
  target_lt := h.target_lt
  entered := h.entered

/-- The transitions of a sprout are those of states that have been expanded. -/
theorem of_mem {q r : Nat} {a : Symbol} (h : s.Tended room symbols current [])
    (hmem : (q, a, r) ∈ s.triples) : q < current ∧ a ∈ symbols ∧ r < s.size := by
  have htreated := (h.exists_iff q a).mp ⟨r, hmem⟩
  simp only [List.not_mem_nil, and_false, or_false] at htreated
  exact ⟨htreated.1, htreated.2, h.target_lt q a r hmem⟩

end Tended

/-- Adding the missing transitions of a state that has been made leaves none missing. -/
theorem always_grow (hdraws : draws.Lawful) (p : Float) (hnodup : symbols.Nodup)
    {rest : List Symbol} (hsplit : done ++ rest = symbols)
    (h : s.Tended room symbols current done) (hcurrent : current < s.size) :
    Always (grow draws p room current s rest) fun t => t.Tended room symbols (current + 1) [] := by
  induction rest generalizing s done with
  | nil =>
    rw [List.append_nil] at hsplit
    exact .pure (Tended.next (hsplit ▸ h) hcurrent)
  | cons a rest ih =>
    refine .bind (always_target hdraws p room hcurrent) fun found hleads => ?_
    have hnew : a ∉ done := by
      rw [← hsplit, List.nodup_append] at hnodup
      exact fun hdone => hnodup.2.2 a hdone a List.mem_cons_self rfl
    exact ih (by rw [List.append_assoc]; exact hsplit) (h.cons hcurrent hnew hleads)
      (hcurrent.trans_le hleads.le)

/-! ## The loop -/

/-- The loop as it runs without a bound on the rounds: while there is a state that has not been
expanded, the first of them is. From a sprout and a source of draws it leads to a sprout and a
source, if it ends. -/
inductive Expands (draws : Draws γ) (p : Float) (room : Nat) (symbols : List Symbol) :
    (current : Nat) → Sprout → γ → Sprout → γ → Prop where
  | stop {current : Nat} {s : Sprout} (g : γ) : ¬current < s.size →
      Expands draws p room symbols current s g s g
  | round {current : Nat} {s t u : Sprout} {g g' g'' : γ} : current < s.size →
      grow draws p room current s symbols g = (t, g') →
        Expands draws p room symbols (current + 1) t g' u g'' →
          Expands draws p room symbols current s g u g''

namespace Expands

variable {g g' : γ}

/-- There is one way for the loop to run only. -/
theorem unique {u : Sprout} {g'' : γ} (h : Expands draws p room symbols current s g t g')
    (hother : Expands draws p room symbols current s g u g'') : t = u ∧ g' = g'' := by
  induction h with
  | stop g hstop =>
    cases hother with
    | stop => exact ⟨rfl, rfl⟩
    | round hgoes => exact absurd hgoes hstop
  | round hgoes hgrow _ ih =>
    cases hother with
    | stop _ hstop => exact absurd hgoes hstop
    | round _ hgrow' hrest =>
      obtain ⟨rfl, rfl⟩ := Prod.mk.inj (hgrow.symm.trans hgrow')
      exact ih hrest

/-- If the loop ends, then it has one outcome. -/
theorem iff {u : Sprout} {g'' : γ} (h : Expands draws p room symbols current s g t g') :
    Expands draws p room symbols current s g u g'' ↔ u = t ∧ g'' = g' := by
  constructor
  · exact fun hother => hother.unique h
  · rintro ⟨rfl, rfl⟩
    exact h

/-- When the loop ends, all states have been expanded. -/
theorem tended (hdraws : draws.Lawful) (hnodup : symbols.Nodup)
    (h : Expands draws p room symbols current s g t g') (hs : s.Tended room symbols current []) :
    t.Tended room symbols t.size [] := by
  induction h with
  | stop g hstop =>
    obtain rfl := Nat.le_antisymm hs.current_le (Nat.not_lt.mp hstop)
    exact hs
  | @round current s t u g _ _ hgoes hgrow _ ih =>
    apply ih
    have hgrown := always_grow hdraws p hnodup (List.nil_append symbols) hs hgoes g
    rwa [hgrow] at hgrown

end Expands

/-- As many rounds as there is room for states are enough for the loop to end. -/
theorem expands_growAll (hdraws : draws.Lawful) (p : Float) (hnodup : symbols.Nodup)
    {states : Nat} (hstates : room ≤ states + current) (hs : s.Tended room symbols current [])
    (g : γ) : Expands draws p room symbols current s g
      (growAll draws p room symbols states current s g).1
      (growAll draws p room symbols states current s g).2 := by
  induction states generalizing current s g with
  | zero =>
    have hsize := hs.size_le
    exact .stop g (by omega)
  | succ states ih =>
    unfold growAll
    split
    · rename_i hgoes
      have hgrown := always_grow hdraws p hnodup (List.nil_append symbols) hs hgoes g
      exact .round hgoes rfl (ih (by omega) hgrown _)
    · rename_i hstop
      exact .stop g hstop

/-- From one state on, the loop ends with all states expanded. -/
theorem always_growAll (hdraws : draws.Lawful) (p : Float) (hroom : 0 < room)
    (hnodup : symbols.Nodup) :
    Always (growAll draws p room symbols room 0 ⟨1, []⟩) fun s =>
      s.Tended room symbols s.size [] := by
  intro g
  have hstart := Tended.start hroom symbols
  exact (expands_growAll hdraws p hnodup (Nat.le_add_right room 0) hstart g).tended hdraws hnodup
    hstart

end Sprout

end Random

end RegularLanguages
