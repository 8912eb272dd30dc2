import RegularLanguages.Proofs.Budgets
import RegularLanguages.Proofs.Reports

/-!
# Charging reports to a budget

What comes of a construction within a budget is decided by its reports. They are charged to the
budget one after another; the first that is refused ends the construction with an error, and if all
are accepted, the value is that of the construction without a budget. With a ceiling only, what is
refused is the first number of states beyond it. With a deadline only, which has passed whenever the
clock is read, what is refused is the unit of work on which it is read first.
-/

namespace RegularLanguages

namespace Budget

variable {b rest : Budget} {e : ConversionError} {limit : Nat}

/-- Charges a report. -/
def charge (b : Budget) : Report → Except ConversionError Unit × Budget
  | .work => b.step
  | .states count => (b.allow count, b)

/-- Charges reports one after another, until one is refused. -/
def chargeAll (b : Budget) : List Report → Except ConversionError Unit × Budget
  | [] => (.ok (), b)
  | report :: reports =>
    match b.charge report with
    | (.ok (), b) => b.chargeAll reports
    | (.error e, b) => (.error e, b)

/-- If a report can be charged, the remaining reports are charged to what is left. -/
theorem chargeAll_cons_of_ok {report : Report} (h : b.charge report = (.ok (), rest))
    (reports : List Report) : b.chargeAll (report :: reports) = rest.chargeAll reports := by
  rw [chargeAll, h]

/-- If a report is refused, the remaining reports are not looked at. -/
theorem chargeAll_cons_of_error {report : Report} (h : b.charge report = (.error e, rest))
    (reports : List Report) : b.chargeAll (report :: reports) = (.error e, rest) := by
  rw [chargeAll, h]

/-- If all reports are accepted, then the first one is, and then the others. -/
theorem exists_charge_of_chargeAll_cons {report : Report} {reports : List Report}
    (h : b.chargeAll (report :: reports) = (.ok (), rest)) :
    ∃ next, b.charge report = (.ok (), next) ∧ next.chargeAll reports = (.ok (), rest) := by
  rcases hfirst : b.charge report with ⟨e | _, next⟩
  · rw [chargeAll_cons_of_error hfirst] at h
    cases h
  · rw [chargeAll_cons_of_ok hfirst] at h
    exact ⟨next, rfl, h⟩

/-- After reports that are accepted, the next ones are charged to what is left. -/
theorem chargeAll_append_of_ok {reports : List Report} (h : b.chargeAll reports = (.ok (), rest))
    (more : List Report) : b.chargeAll (reports ++ more) = rest.chargeAll more := by
  induction reports generalizing b with
  | nil =>
    obtain ⟨-, rfl⟩ := Prod.mk.inj h
    rfl
  | cons report reports ih =>
    obtain ⟨next, hfirst, h⟩ := exists_charge_of_chargeAll_cons h
    rw [List.cons_append, chargeAll_cons_of_ok hfirst, ih h]

/-- After a report that is refused, no other is charged. -/
theorem chargeAll_append_of_error {reports : List Report}
    (h : b.chargeAll reports = (.error e, rest)) (more : List Report) :
    b.chargeAll (reports ++ more) = (.error e, rest) := by
  induction reports generalizing b with
  | nil => cases h
  | cons report reports ih =>
    rcases hfirst : b.charge report with ⟨e' | _, next⟩
    · rw [chargeAll_cons_of_error hfirst] at h
      rw [List.cons_append, chargeAll_cons_of_error hfirst, h]
    · rw [chargeAll_cons_of_ok hfirst] at h
      rw [List.cons_append, chargeAll_cons_of_ok hfirst, ih h]

/-! ## Ceilings -/

/-- A size is allowed if it does not exceed the ceiling. -/
theorem allow_of_maxStates (hlimit : b.maxStates = some limit) (count : Nat) :
    b.allow count =
      if limit < count then .error (.memory b.operation count limit) else .ok () := by
  simp only [allow, hlimit]

/-- Charging does not change the ceiling. -/
theorem maxStates_charge (b : Budget) (report : Report) :
    (b.charge report).2.maxStates = b.maxStates := by
  cases report with
  | states count => rfl
  | work =>
    simp only [charge, step, checkClock]
    split
    · split <;> rfl
    · rfl

/-- If all reports are accepted, then no reported number exceeds the ceiling. -/
theorem le_of_chargeAll_eq_ok {reports : List Report} (hlimit : b.maxStates = some limit)
    (h : b.chargeAll reports = (.ok (), rest)) :
    rest.maxStates = some limit ∧ ∀ count, .states count ∈ reports → count ≤ limit := by
  induction reports generalizing b with
  | nil =>
    obtain ⟨-, rfl⟩ := Prod.mk.inj h
    exact ⟨hlimit, by simp⟩
  | cons report reports ih =>
    obtain ⟨next, hfirst, h⟩ := exists_charge_of_chargeAll_cons h
    have hnext : next.maxStates = some limit := by
      rw [← hlimit, ← maxStates_charge b report, hfirst]
    obtain ⟨hrest, hcounts⟩ := ih hnext h
    refine ⟨hrest, fun count hcount => ?_⟩
    rcases List.mem_cons.mp hcount with rfl | hcount
    · by_contra hlt
      rw [charge, allow_of_maxStates hlimit, if_pos (Nat.lt_of_not_le hlt)] at hfirst
      cases hfirst
    · exact hcounts count hcount

/-- If states are counted one by one and there is no time limit, then the first number beyond the
ceiling is refused. -/
theorem chargeAll_of_ceiling {reports : List Report} {known new : Nat}
    (htimeout : b.timeout = none) (hlimit : b.maxStates = some limit) (hknown : known ≤ limit)
    (hcounts : reports.filterMap Report.count? = List.range' (known + 1) new) :
    (b.chargeAll reports).1 =
      if limit < known + new then .error (.memory b.operation (limit + 1) limit) else .ok () := by
  induction reports generalizing b known new with
  | nil =>
    have hnew : new = 0 := by simpa using congrArg List.length hcounts.symm
    rw [hnew, Nat.add_zero, if_neg (Nat.not_lt.mpr hknown)]
    rfl
  | cons report reports ih =>
    cases report with
    | work =>
      have hcharge : b.charge .work = (.ok (), { b with steps := b.steps + 1 }) :=
        step_of_timeout_eq_none htimeout
      rw [chargeAll_cons_of_ok hcharge]
      exact ih htimeout hlimit hknown hcounts
    | states count =>
      obtain _ | new := new
      · cases hcounts
      obtain ⟨rfl, hrest⟩ := List.cons.inj hcounts
      by_cases hfull : limit < known + 1
      · have hcharge : b.charge (.states (known + 1)) =
            (.error (.memory b.operation (known + 1) limit), b) := by
          rw [charge, allow_of_maxStates hlimit, if_pos hfull]
        obtain rfl : known = limit := by omega
        rw [chargeAll_cons_of_error hcharge, if_pos (by omega)]
      · have hcharge : b.charge (.states (known + 1)) = (.ok (), b) := by
          rw [charge, allow_of_maxStates hlimit, if_neg hfull]
        rw [chargeAll_cons_of_ok hcharge, ih htimeout hlimit (Nat.le_of_not_lt hfull) hrest,
          Nat.add_right_comm, Nat.add_assoc]

/-! ## Deadlines -/

/-- Between two readings of the clock, a unit of work is only counted. -/
theorem step_of_mod_ne_zero (h : (b.steps + 1) % clockInterval ≠ 0) :
    b.step = (.ok (), { b with steps := b.steps + 1 }) := by
  simp only [step, if_neg h]

/-- If the time is over when the clock is read, the computation is stopped. -/
theorem checkClock_of_lt {timeout : Duration} (htimeout : b.timeout = some timeout)
    (hover : timeout.nanoseconds < b.elapsed.nanoseconds) :
    b.checkClock =
      (.error (.timeout b.operation b.elapsed timeout), { b with readings := b.readings + 1 }) := by
  simp only [checkClock, htimeout, if_pos hover]

/-- If there is no ceiling and the time is over when the clock is read, then the first unit of work
on which it is read is refused. -/
theorem chargeAll_of_deadline {reports : List Report} {timeout : Duration}
    (hceiling : b.maxStates = none) (htimeout : b.timeout = some timeout)
    (hover : timeout.nanoseconds < b.elapsed.nanoseconds) (hsteps : b.steps < clockInterval) :
    (b.chargeAll reports).1 =
      if clockInterval ≤ b.steps + reports.count .work then
        .error (.timeout b.operation b.elapsed timeout)
      else .ok () := by
  induction reports generalizing b with
  | nil =>
    rw [List.count_nil, Nat.add_zero, if_neg (Nat.not_le.mpr hsteps)]
    rfl
  | cons report reports ih =>
    cases report with
    | states count =>
      have hcharge : b.charge (.states count) = (.ok (), b) := by
        simp only [charge, allow, hceiling]
      rw [chargeAll_cons_of_ok hcharge, ih hceiling htimeout hover hsteps,
        List.count_cons_of_ne (by simp)]
    | work =>
      rw [List.count_cons_self]
      by_cases hgrid : b.steps + 1 = clockInterval
      · have hcharge : b.charge .work = (.error (.timeout b.operation b.elapsed timeout),
            { b with steps := b.steps + 1, readings := b.readings + 1 }) := by
          rw [charge, step, if_pos (by rw [hgrid, Nat.mod_self])]
          exact checkClock_of_lt htimeout hover
        rw [chargeAll_cons_of_error hcharge, if_pos (by omega)]
      · have hnext : b.steps + 1 < clockInterval := by omega
        have hcharge : b.charge .work = (.ok (), { b with steps := b.steps + 1 }) :=
          step_of_mod_ne_zero (by rw [Nat.mod_eq_of_lt hnext]; omega)
        have hrest := ih (b := { b with steps := b.steps + 1 }) hceiling htimeout hover hnext
        rw [chargeAll_cons_of_ok hcharge, hrest, Nat.add_right_comm, Nat.add_assoc]
        rfl

end Budget

namespace Recorded

variable {ε α β : Type} {wrap : ConversionError → ε} {d : Recorded α} {b rest : Budget}

/-- What comes of a recorded computation if its reports are charged to a budget. -/
def within (wrap : ConversionError → ε) (b : Budget) (d : Recorded α) : Except ε α × Budget :=
  match b.chargeAll d.reports with
  | (.ok (), rest) => (.ok d.value, rest)
  | (.error e, rest) => (.error (wrap e), rest)

/-- If all reports can be charged, a recorded computation comes to its value. -/
theorem within_of_ok (h : b.chargeAll d.reports = (.ok (), rest)) :
    d.within wrap b = (.ok d.value, rest) := by
  rw [within, h]

/-- If a report is refused, a recorded computation fails with the reason. -/
theorem within_of_error {e : ConversionError} (h : b.chargeAll d.reports = (.error e, rest)) :
    d.within wrap b = (.error (wrap e), rest) := by
  rw [within, h]

/-- The outcome without what is left of the budget. -/
theorem within_fst (wrap : ConversionError → ε) (b : Budget) (d : Recorded α) :
    (d.within wrap b).1 = match (b.chargeAll d.reports).1 with
      | .ok () => .ok d.value
      | .error e => .error (wrap e) := by
  rcases hcharge : b.chargeAll d.reports with ⟨e | _, rest⟩
  · rw [within_of_error hcharge]
  · rw [within_of_ok hcharge]

/-- If a value comes out, all reports were accepted. -/
theorem chargeAll_of_within_eq_ok {x : α} (h : d.within wrap b = (.ok x, rest)) :
    x = d.value ∧ b.chargeAll d.reports = (.ok (), rest) := by
  rcases hcharge : b.chargeAll d.reports with ⟨e | _, next⟩
  · rw [within_of_error hcharge] at h
    cases h
  · rw [within_of_ok hcharge] at h
    obtain ⟨hvalue, rfl⟩ := Prod.mk.inj h
    exact ⟨(Except.ok.inj hvalue).symm, rfl⟩

/-- After a computation all reports of which are accepted, the next one is charged to what is
left. -/
theorem within_bind_of_ok (h : b.chargeAll d.reports = (.ok (), rest)) (f : α → Recorded β) :
    (d >>= f).within wrap b = (f d.value).within wrap rest := by
  change (match b.chargeAll (d.reports ++ (f d.value).reports) with
    | (.ok (), rest) => (Except.ok (f d.value).value, rest)
    | (.error e, rest) => (.error (wrap e), rest)) = _
  rw [Budget.chargeAll_append_of_ok h]
  rfl

end Recorded

namespace Lockstep

variable {ε : Type}

/-- What comes of a computation within a budget is decided by what is recorded. -/
def charging (wrap : ConversionError → ε) : Lockstep (Bounded ε) Recorded where
  Related c d := ∀ b, Bounded.within b c = d.within wrap b
  pure _ _ := rfl
  bind {α β c d f g} hc hf b := by
    rcases hfirst : b.chargeAll d.reports with ⟨e | _, rest⟩
    · have hall : b.chargeAll (d >>= g).reports = (.error e, rest) :=
        Budget.chargeAll_append_of_error hfirst (g d.value).reports
      rw [Recorded.within_of_error hall]
      exact Bounded.within_bind_of_error ((hc b).trans (Recorded.within_of_error hfirst))
    · rw [Recorded.within_bind_of_ok hfirst, ← hf d.value rest]
      exact Bounded.within_bind_of_ok ((hc b).trans (Recorded.within_of_ok hfirst))

/-- A single report is charged as it is recorded. -/
theorem charging_report (wrap : ConversionError → ε) (report : Report) (b : Budget) :
    ((b.charge report).1.mapError wrap, (b.charge report).2) =
      Recorded.within wrap b ⟨(), [report]⟩ := by
  rcases hcharge : b.charge report with ⟨e | _, rest⟩
  · rw [Recorded.within_of_error (Budget.chargeAll_cons_of_error hcharge [])]
    rfl
  · rw [Recorded.within_of_ok (Budget.chargeAll_cons_of_ok hcharge [])]
    rfl

/-- What the meter of a budget charges comes to what the recorded reports come to, and so do all
metered constructions. -/
theorem meters_charging (wrap : ConversionError → ε) :
    (charging wrap).Meters (Bounded.meter wrap) Meter.recorder where
  tick := charging_report wrap .work
  allow count := charging_report wrap (.states count)

end Lockstep

end RegularLanguages
