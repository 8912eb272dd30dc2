import RegularLanguages.Automaton.Minimal
import RegularLanguages.Automaton.Subset

/-!
# Constructions that report to a meter

A construction that reports its work is written once for all meters. Two runs of it with different
meters go side by side: a relation between computations that is kept when these go on relates the
two runs as soon as it relates what the two meters do. What a meter can change is so reduced to
what a single report can change.
-/

namespace RegularLanguages

/-- A relation between computations of two kinds that is kept when they go on alike. -/
structure Lockstep (m n : Type → Type) [Monad m] [Monad n] where
  Related : {α : Type} → m α → n α → Prop
  pure : ∀ {α : Type} (x : α), Related (Pure.pure x) (Pure.pure x)
  bind : ∀ {α β : Type} {c : m α} {d : n α} {f : α → m β} {g : α → n β},
    Related c d → (∀ x, Related (f x) (g x)) → Related (c >>= f) (d >>= g)

namespace Lockstep

variable {m n : Type → Type} [Monad m] [Monad n]

/-- The reports to two meters are related. -/
structure Meters (R : Lockstep m n) (μ : Meter m) (ν : Meter n) : Prop where
  tick : R.Related μ.tick ν.tick
  allow : ∀ states, R.Related (μ.allow states) (ν.allow states)

namespace Meters

variable {R : Lockstep m n} {μ : Meter m} {ν : Meter n}

/-- Any number of steps of related meters are related. -/
theorem ticks (h : R.Meters μ ν) (k : Nat) : R.Related (μ.ticks k) (ν.ticks k) := by
  induction k with
  | zero => exact R.pure ()
  | succ k ih => exact R.bind h.tick fun _ => ih

section Search

variable {σ : Type} [Ord σ] [Std.TransOrd σ]

/-- Reaching a node with related meters is related. -/
theorem reach (h : R.Meters μ ν) (p : σ) (a : Symbol) (s : Search σ) (q : σ) :
    R.Related (s.reach μ p a q) (s.reach ν p a q) := by
  unfold Search.reach
  split
  · exact R.pure _
  · exact R.bind (h.allow _) fun _ => R.pure _

/-- Reaching several nodes with related meters is related. -/
theorem reachAll (h : R.Meters μ ν) (p : σ) (a : Symbol) (s : Search σ) (targets : List σ) :
    R.Related (s.reachAll μ p a targets) (s.reachAll ν p a targets) := by
  induction targets generalizing s with
  | nil => exact R.pure s
  | cons q targets ih => exact R.bind (h.reach p a s q) ih

/-- Following all symbols from a node with related meters is related. -/
theorem followAll (h : R.Meters μ ν) (next : σ → Symbol → List σ) (p : σ) (s : Search σ)
    (symbols : List Symbol) :
    R.Related (Search.followAll μ next p s symbols) (Search.followAll ν next p s symbols) := by
  induction symbols generalizing s with
  | nil => exact R.pure s
  | cons a symbols ih =>
    have hfollow : R.Related (s.follow μ next p a) (s.follow ν next p a) :=
      R.bind h.tick fun _ => h.reachAll p a s (next p a)
    exact R.bind hfollow ih

/-- Expanding a search with related meters is related, and so are all constructions that search. -/
theorem expand (h : R.Meters μ ν) (symbols : List Symbol) (next : σ → Symbol → List σ)
    (nodes : Nat) (s : Search σ) :
    R.Related (Search.expand μ symbols next nodes s) (Search.expand ν symbols next nodes s) := by
  induction nodes generalizing s with
  | zero => exact R.pure s
  | succ nodes ih =>
    unfold Search.expand
    cases s.next? with
    | none => exact R.pure s
    | some found => exact R.bind (h.followAll next found.1 found.2 symbols) ih

/-- Two runs of a search go side by side. -/
theorem run (h : R.Meters μ ν) (symbols : List Symbol) (next : σ → Symbol → List σ) (nodes : Nat)
    (first : σ) :
    R.Related (Search.run μ symbols next nodes first) (Search.run ν symbols next nodes first) :=
  R.bind (h.allow 1) fun _ => h.expand symbols next nodes (.start first)

end Search

/-- Subset constructions with related meters are related. -/
theorem determinize (h : R.Meters μ ν) (N : NFA) :
    R.Related (N.determinizeWith μ) (N.determinizeWith ν) :=
  R.bind (h.run _ _ _ _) fun _ => R.pure _

/-- Subset constructions through closures with related meters are related. -/
theorem determinizeDirect (h : R.Meters μ ν) (E : EpsilonNFA) :
    R.Related (E.determinizeWith μ) (E.determinizeWith ν) :=
  R.bind (h.run _ _ _ _) fun _ => R.pure _

/-- Two refinements of the same classes go side by side. -/
theorem refineAll (h : R.Meters μ ν) (rows : SuccessorRows) (rounds : Nat)
    (classes : List (List Nat)) :
    R.Related (rows.refineAll μ rounds classes) (rows.refineAll ν rounds classes) := by
  induction rounds generalizing classes with
  | zero => exact R.pure classes
  | succ rounds ih =>
    unfold SuccessorRows.refineAll
    refine R.bind (h.ticks rows.size) fun _ => ?_
    dsimp only
    split
    · exact R.pure _
    · exact ih _

/-- Refinements of the states into classes with related meters are related. -/
theorem indistinguishable (h : R.Meters μ ν) (D : DFA) :
    R.Related (D.indistinguishableWith μ) (D.indistinguishableWith ν) :=
  R.bind (h.refineAll _ _ _) fun _ => R.pure _

/-- Minimizations with related meters are related. -/
theorem minimize (h : R.Meters μ ν) (D : DFA) :
    R.Related (D.minimizeWith μ) (D.minimizeWith ν) :=
  R.bind (h.indistinguishable _) fun _ => R.pure _

end Meters

section Returning

variable {ε σ : Type}

/-- A computation that may change a state and fail returns nothing but what the other one does. -/
def returning : Lockstep (ExceptT ε (StateM σ)) Id where
  Related c d := ∀ s x, (c s).1 = .ok x → x = Id.run d
  pure x := fun _ _ h => (Except.ok.inj h).symm
  bind {α β c d f g} hc hf := by
    intro s y h
    change (ExceptT.bindCont f (c s).1 (c s).2).1 = .ok y at h
    rcases hrun : c s with ⟨e | x, rest⟩
    · rw [hrun] at h
      contradiction
    · rw [hrun] at h
      obtain rfl := hc s x (by rw [hrun])
      exact hf _ rest y h

/-- A meter can only fail or go on. -/
theorem meters_returning (μ : Meter (ExceptT ε (StateM σ))) : returning.Meters μ Meter.free :=
  ⟨fun _ _ _ => rfl, fun _ _ _ _ => rfl⟩

end Returning

end Lockstep

end RegularLanguages
