/-!
# Outcomes

Checks, readers and constructions end with a value or an error. Here is how the outcome of several
steps comes from the outcomes of the single ones.
-/

namespace RegularLanguages

variable {ε ε' α β : Type}

/-- If a function is applied to an outcome and a value comes out, then there was a value. -/
theorem exists_of_map_eq_ok {f : α → β} {outcome : Except ε α} {y : β}
    (h : outcome.map f = .ok y) : ∃ x, outcome = .ok x ∧ f x = y := by
  cases outcome with
  | error e => contradiction
  | ok x => exact ⟨x, rfl, Except.ok.inj h⟩

/-- A failure stays the same failure if a function is applied to the outcome. -/
theorem map_eq_error_iff {f : α → β} {outcome : Except ε α} {e : ε} :
    outcome.map f = .error e ↔ outcome = .error e := by
  cases outcome <;> simp [Except.map]

/-- After a value, what follows it goes on. -/
@[simp] theorem ok_bind (x : α) (f : α → Except ε β) : (Except.ok x >>= f) = f x := rfl

/-- After an error, nothing goes on. -/
@[simp] theorem error_bind (e : ε) (f : α → Except ε β) : (Except.error e >>= f) = .error e := rfl

/-- If two steps have a value, then each of them has one. -/
theorem exists_of_bind_eq_ok {outcome : Except ε α} {f : α → Except ε β} {y : β}
    (h : (outcome >>= f) = .ok y) : ∃ x, outcome = .ok x ∧ f x = .ok y := by
  cases outcome with
  | error e => contradiction
  | ok x => exact ⟨x, rfl, h⟩

/-- If a value comes out when an error would be put into other terms, it was there before. -/
theorem of_mapError_eq_ok {g : ε → ε'} {outcome : Except ε α} {x : α}
    (h : outcome.mapError g = .ok x) : outcome = .ok x := by
  cases outcome with
  | error e => contradiction
  | ok y => exact congrArg Except.ok (Except.ok.inj h)

/-- The error of two steps is put into other terms by doing so for each of them. -/
theorem mapError_bind (g : ε → ε') (outcome : Except ε α) (f : α → Except ε β) :
    (outcome >>= f).mapError g = (outcome.mapError g >>= fun x => (f x).mapError g) := by
  cases outcome <;> rfl

end RegularLanguages
