import RegularLanguages.Conversion.Error
import RegularLanguages.Automaton.Search

/-!
# Budgets

A budget limits the number of states a conversion may make and the time it may take. The time is
looked at only on every 256th unit of work. What the clock shows is given beforehand, as the time
that has passed at each of its readings.
-/

namespace RegularLanguages

/-- The time that has passed since the start, reading by reading. -/
abbrev Clock := (reading : Nat) → Duration

/-- The limits of a running conversion and what it has used of them. -/
structure Budget where
  operation : String
  maxStates : Option Nat
  timeout : Option Duration
  clock : Clock
  /-- Units of work done so far. -/
  steps : Nat
  /-- Readings of the clock so far. -/
  readings : Nat

namespace Budget

/-- Units of work between two readings of the clock. -/
def clockInterval : Nat := 256

/-- The budget of a conversion that begins. -/
def start (operation : String) (maxStates : Option Nat) (timeout : Option Duration)
    (clock : Clock) : Budget := ⟨operation, maxStates, timeout, clock, 0, 0⟩

/-- The time that has passed at the next reading of the clock. -/
def elapsed (b : Budget) : Duration := b.clock b.readings

/-- Reads the clock, if there is a time limit. -/
def checkClock (b : Budget) : Except ConversionError Unit × Budget :=
  match b.timeout with
  | none => (.ok (), b)
  | some limit =>
    (if limit.nanoseconds < b.elapsed.nanoseconds then
        .error (.timeout b.operation b.elapsed limit)
      else .ok (),
      { b with readings := b.readings + 1 })

/-- Does one unit of work. -/
def step (b : Budget) : Except ConversionError Unit × Budget :=
  let b := { b with steps := b.steps + 1 }
  if b.steps % clockInterval = 0 then b.checkClock else (.ok (), b)

/-- Whether an automaton with this many states may be made. -/
def allow (b : Budget) (states : Nat) : Except ConversionError Unit :=
  match b.maxStates with
  | some limit => if limit < states then .error (.memory b.operation states limit) else .ok ()
  | none => .ok ()

end Budget

/-- Computations that use a budget and may fail. -/
abbrev Bounded (ε : Type) := ExceptT ε (StateM Budget)

namespace Bounded

variable {ε : Type}

/-- Fails or goes on as a check says. -/
def ofExcept {α : Type} (result : Except ε α) : Bounded ε α := fun b => (result, b)

/-- The meter that charges the budget; `wrap` makes its errors those of the computation. -/
def meter (wrap : ConversionError → ε) : Meter (Bounded ε) where
  tick := fun b => (b.step.1.mapError wrap, b.step.2)
  allow states := fun b => ((b.allow states).mapError wrap, b)

/-- What comes out within a budget, and what is left of the budget. -/
def within {α : Type} (budget : Budget) (computation : Bounded ε α) : Except ε α × Budget :=
  computation budget

end Bounded

end RegularLanguages
