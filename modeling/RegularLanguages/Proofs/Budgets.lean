import RegularLanguages.Conversion.Engine
import RegularLanguages.Proofs.Metering

/-!
# Computations within a budget

A budget can stop a computation but not change its value. The constructions that report to a meter
are the same for every meter, so what they yield within a budget, if the budget suffices, is what
they yield if nothing is charged.
-/

namespace RegularLanguages

/-- Without a time limit, a unit of work is only counted. -/
theorem Budget.step_of_timeout_eq_none {b : Budget} (h : b.timeout = none) :
    b.step = (.ok (), { b with steps := b.steps + 1 }) := by
  unfold step
  dsimp only
  split
  · simp only [checkClock, h]
  · rfl

/-- A computation with a value comes to it. -/
theorem exists_eq_ok_of_isSome {ε α : Type} {result : Except ε α}
    (h : result.toOption.isSome = true) : ∃ x, result = .ok x := by
  cases result with
  | ok x => exact ⟨x, rfl⟩
  | error e => cases h

namespace Bounded

variable {ε α β : Type} {c : Bounded ε α} {f : α → Bounded ε β} {budget rest : Budget}

/-- After a value, a computation goes on with what is left of the budget. -/
theorem within_bind_of_ok {x : α} (h : within budget c = (.ok x, rest)) :
    within budget (c >>= f) = within rest (f x) := by
  change ExceptT.bindCont f (within budget c).1 (within budget c).2 = _
  rw [h]
  rfl

/-- An error ends a computation. -/
theorem within_bind_of_error {e : ε} (h : within budget c = (.error e, rest)) :
    within budget (c >>= f) = (.error e, rest) := by
  change ExceptT.bindCont f (within budget c).1 (within budget c).2 = _
  rw [h]
  rfl

end Bounded

/-- An error that says that a budget does not suffice. -/
def RequestError.IsLimit : RequestError → Prop
  | .conversion (.timeout _ _ _) | .conversion (.memory _ _ _) => True
  | .conversion (.notEquivalent _ _) | .pattern _ | .operation _ => False

namespace Computation

variable {α β : Type} {c : Computation α} {x : α} {fails fails' : RequestError → Prop}
  {post post' : α → Prop}

/-- Within every budget, a computation ends with a value or an error of which something holds. -/
structure Ensures (c : Computation α) (fails : RequestError → Prop) (post : α → Prop) : Prop where
  result : ∀ budget, match (Bounded.within budget c).1 with
    | .ok x => post x
    | .error e => fails e

/-- Within every budget, a computation ends with the value, unless the budget does not suffice. -/
def Yields (c : Computation α) (x : α) : Prop := c.Ensures RequestError.IsLimit fun y => y = x

namespace Ensures

/-- A computation that only returns a value ensures what holds of the value. -/
theorem pure (h : post x) : Ensures (Pure.pure x) fails post := ⟨fun _ => h⟩

/-- A computation that only fails ensures what holds of the error. -/
theorem throw {e : RequestError} (h : fails e) : Ensures (MonadExcept.throw e) fails post :=
  ⟨fun _ => h⟩

/-- A computation goes on with a value of which it is known what was ensured. -/
theorem bind {f : α → Computation β} {goal : β → Prop} (hc : Ensures c fails post)
    (hf : ∀ x, post x → Ensures (f x) fails goal) : Ensures (c >>= f) fails goal := by
  constructor
  intro budget
  have hfirst := hc.result budget
  rcases hrun : Bounded.within budget c with ⟨e | x, rest⟩
  · rw [Bounded.within_bind_of_error hrun]
    rwa [hrun] at hfirst
  · rw [Bounded.within_bind_of_ok hrun]
    rw [hrun] at hfirst
    exact (hf x hfirst).result rest

/-- What a computation ensures may be weakened, for its values and for its errors. -/
theorem mono (hc : Ensures c fails post) (hfails : ∀ e, fails e → fails' e)
    (hpost : ∀ x, post x → post' x) : Ensures c fails' post' := by
  constructor
  intro budget
  have hresult := hc.result budget
  revert hresult
  rcases (Bounded.within budget c).1 with e | x
  · exact hfails e
  · exact hpost x

end Ensures

namespace Yields

/-- A computation that only returns a value yields it. -/
theorem pure (x : α) : Yields (Pure.pure x) x := Ensures.pure rfl

/-- A computation that yields a value goes on as what follows this value. -/
theorem bind {f : α → Computation β} {y : β} (hc : c.Yields x) (hf : (f x).Yields y) :
    (c >>= f).Yields y :=
  Ensures.bind hc fun _ h => h ▸ hf

end Yields

/-! ## What a meter charges -/

/-- Reading the clock can only show that the time is over. -/
theorem isLimit_of_checkClock {b : Budget} {e : ConversionError} (h : b.checkClock.1 = .error e) :
    (RequestError.conversion e).IsLimit := by
  unfold Budget.checkClock at h
  split at h
  · contradiction
  · dsimp only at h
    split at h
    · obtain rfl := Except.error.inj h
      trivial
    · contradiction

/-- A unit of work can only fail because the time is over. -/
theorem isLimit_of_step {b : Budget} {e : ConversionError} (h : b.step.1 = .error e) :
    (RequestError.conversion e).IsLimit := by
  unfold Budget.step at h
  dsimp only at h
  split at h
  · exact isLimit_of_checkClock h
  · contradiction

/-- A size is only refused because it is too large. -/
theorem isLimit_of_allow {b : Budget} {states : Nat} {e : ConversionError}
    (h : b.allow states = .error e) : (RequestError.conversion e).IsLimit := by
  unfold Budget.allow at h
  split at h
  · split at h
    · obtain rfl := Except.error.inj h
      trivial
    · contradiction
  · contradiction

/-- A unit of work yields nothing, unless the time is up. -/
theorem yields_tick : meter.tick.Yields () := by
  constructor
  intro budget
  have hrun : (Bounded.within budget meter.tick).1 =
      budget.step.1.mapError RequestError.conversion := rfl
  rw [hrun]
  cases hresult : budget.step.1 with
  | ok x => rfl
  | error e => exact isLimit_of_step hresult

/-- Looking at a number of states yields nothing, unless there are too many. -/
theorem yields_allow (states : Nat) : (meter.allow states).Yields () := by
  constructor
  intro budget
  have hrun : (Bounded.within budget (meter.allow states)).1 =
      (budget.allow states).mapError RequestError.conversion := rfl
  rw [hrun]
  cases hresult : budget.allow states with
  | ok x => rfl
  | error e => exact isLimit_of_allow hresult

/-- Within a budget, a computation yields what it yields if nothing is charged. -/
def yielding : Lockstep Computation Id where
  Related c d := c.Yields (Id.run d)
  pure x := Yields.pure x
  bind hc hf := hc.bind (hf _)

/-- The meter of a budget yields what the meter that charges nothing does, so metered constructions
yield what free ones make. -/
theorem meters_yielding : yielding.Meters meter Meter.free := ⟨yields_tick, yields_allow⟩

end Computation

open RegularLanguages.Computation (Yields meter meters_yielding)

/-- The subset construction within a budget yields the deterministic automaton, unless the budget
does not suffice. -/
theorem NFA.yields_determinizeWith (N : NFA) : (N.determinizeWith meter).Yields N.determinize :=
  meters_yielding.determinize N

/-- The subset construction through closures within a budget yields the deterministic automaton,
unless the budget does not suffice. -/
theorem EpsilonNFA.yields_determinizeWith (E : EpsilonNFA) :
    (E.determinizeWith meter).Yields E.determinize :=
  meters_yielding.determinizeDirect E

/-- Minimization within a budget yields the minimal automaton, unless the budget does not
suffice. -/
theorem DFA.yields_minimizeWith (D : DFA) : (D.minimizeWith meter).Yields D.minimize :=
  meters_yielding.minimize D

end RegularLanguages
