import Mathlib.Data.Set.Card
import RegularLanguages.Proofs.Charges
import RegularLanguages.Proofs.ClosedSubsets

/-!
# Subset constructions within a budget

A subset construction counts its states and does a unit of work for each of them and each symbol.
So whether it ends within a budget can be read off the automaton that it makes without one: a
ceiling stops it if the automaton has more states, with the first number of states that is too
large, and a deadline that has passed stops it if there is enough work for the clock to be read.
What comes out otherwise is this automaton, and never a part of it.
-/

namespace RegularLanguages

open Lockstep (meters_charging meters_returning)

namespace Recorded

variable {ε α : Type} {wrap : ConversionError → ε} {d : Recorded α} {x : α} {b : Budget}

/-- With a ceiling only, a computation that counts its states ends with its value or with the first
number of states beyond the ceiling. -/
theorem within_of_ceiling {size limit : Nat} (hvalue : d.value = x)
    (hcounts : d.counts = List.range' 1 size) (htimeout : b.timeout = none)
    (hlimit : b.maxStates = some limit) :
    (d.within wrap b).1 = if size ≤ limit then .ok x
      else .error (wrap (.memory b.operation (limit + 1) limit)) := by
  rw [within_fst, Budget.chargeAll_of_ceiling htimeout hlimit limit.zero_le hcounts, Nat.zero_add,
    hvalue]
  by_cases hsize : size ≤ limit
  · rw [if_neg (Nat.not_lt.mpr hsize), if_pos hsize]
  · rw [if_pos (Nat.lt_of_not_le hsize), if_neg hsize]

/-- With a deadline only, which has passed whenever the clock is read, a fresh computation ends with
its value unless its work takes as long as it takes to the first reading. -/
theorem within_of_deadline {work : Nat} (hvalue : d.value = x) (hwork : d.work = work)
    {operation : String} {timeout : Duration} {clock : Clock}
    (hover : timeout.nanoseconds < (clock 0).nanoseconds) :
    (d.within wrap (.start operation none (some timeout) clock)).1 =
      if 256 ≤ work then .error (wrap (.timeout operation (clock 0) timeout)) else .ok x := by
  have hcharge : ((Budget.start operation none (some timeout) clock).chargeAll d.reports).1 =
      if Budget.clockInterval ≤ 0 + d.work then .error (.timeout operation (clock 0) timeout)
      else .ok () :=
    Budget.chargeAll_of_deadline rfl rfl hover (Nat.succ_pos 255)
  rw [within_fst, hcharge, Nat.zero_add, hwork, hvalue, Budget.clockInterval]
  by_cases hlong : 256 ≤ work
  · rw [if_pos hlong, if_pos hlong]
  · rw [if_neg hlong, if_neg hlong]

end Recorded

/-- What comes out within a budget, if it is bound to be what comes out without one. -/
theorem Bounded.eq_run_of_returning {ε α : Type} {c : Bounded ε α} {d : Id α}
    (h : Lockstep.returning.Related c d) {b : Budget} {x : α} (hx : (within b c).1 = .ok x) :
    x = Id.run d := h b x hx

/-- If states have the names of the sets that are reached, there are as many as there are non-empty
ones among these. -/
theorem StateSet.ncard_reached {states : StateSet} {reached : Word → StateSet}
    (h : ∀ n, n ∈ states ↔ ∃ w, (reached w).name? = some n) :
    (Set.range reached \ {∅}).ncard = states.size := by
  have hnames : State.ofSet '' (Set.range reached \ {∅}) =
      (FiniteSet.toFinset states : Set State) := by
    ext n
    simp only [Set.mem_image, Set.mem_sdiff, Set.mem_range, Set.mem_singleton_iff, Finset.mem_coe,
      FiniteSet.mem_toFinset, h, name?_eq_some]
    constructor
    · rintro ⟨_, ⟨⟨w, rfl⟩, hne⟩, hname⟩
      exact ⟨w, hne, hname⟩
    · rintro ⟨w, hne, hname⟩
      exact ⟨reached w, ⟨⟨w, rfl⟩, hne⟩, hname⟩
  have hinj : Set.InjOn State.ofSet (Set.range reached \ {∅}) :=
    fun _ hs _ ht => State.ofSet_inj hs.2 ht.2
  rw [← hinj.ncard_image, hnames, Set.ncard_coe_finset, FiniteSet.card_toFinset]

/-- The subset construction has a state for each non-empty set that a word leads to. -/
theorem NFA.ncard_reached {N : NFA} (hN : N.WellFormed) :
    (Set.range N.run \ {∅}).ncard = N.determinize.size :=
  StateSet.ncard_reached fun _ => mem_states_determinize hN

/-- The direct subset construction has a state for each non-empty set that a word leads to. -/
theorem EpsilonNFA.ncard_reached {E : EpsilonNFA} (hE : E.WellFormed) :
    (Set.range E.run \ {∅}).ncard = E.determinize.size :=
  StateSet.ncard_reached fun _ => mem_states_determinize hE

section Budgets

variable {ε : Type} {wrap : ConversionError → ε} {b : Budget} {limit : Nat}

namespace NFA

/-- What comes of the subset construction within a budget is decided by what is recorded. -/
theorem within_determinizeWith (wrap : ConversionError → ε) (b : Budget) (N : NFA) :
    Bounded.within b (N.determinizeWith (Bounded.meter wrap)) =
      (N.determinizeWith Meter.recorder).within wrap b :=
  (meters_charging wrap).determinize N b

/-- A ceiling lets the subset construction pass if it has no more states. -/
theorem determinizeWith_of_ceiling (N : NFA) (htimeout : b.timeout = none)
    (hlimit : b.maxStates = some limit) :
    (Bounded.within b (N.determinizeWith (Bounded.meter wrap))).1 =
      if N.determinize.size ≤ limit then .ok N.determinize
      else .error (wrap (.memory b.operation (limit + 1) limit)) := by
  rw [within_determinizeWith]
  exact Recorded.within_of_ceiling N.value_determinizeWith N.counts_determinizeWith htimeout hlimit

end NFA

namespace EpsilonNFA

/-- What comes of the direct subset construction within a budget is decided by what is recorded. -/
theorem within_determinizeWith (wrap : ConversionError → ε) (b : Budget) (E : EpsilonNFA) :
    Bounded.within b (E.determinizeWith (Bounded.meter wrap)) =
      (E.determinizeWith Meter.recorder).within wrap b :=
  (meters_charging wrap).determinizeDirect E b

/-- A ceiling lets the direct subset construction pass if it has no more states. -/
theorem determinizeWith_of_ceiling (E : EpsilonNFA) (htimeout : b.timeout = none)
    (hlimit : b.maxStates = some limit) :
    (Bounded.within b (E.determinizeWith (Bounded.meter wrap))).1 =
      if E.determinize.size ≤ limit then .ok E.determinize
      else .error (wrap (.memory b.operation (limit + 1) limit)) := by
  rw [within_determinizeWith]
  exact Recorded.within_of_ceiling E.value_determinizeWith E.counts_determinizeWith htimeout hlimit

end EpsilonNFA

end Budgets

/-- Within a ceiling and without a time limit, both subset constructions make the automaton that
they make without a budget if it has no more states than the ceiling says, and fail with the next
number of states if it has more. Whatever the ceiling, the time limit and the clock, what they and
the minimization make is what they make without a budget. -/
theorem bounded_constructions_make_all_or_nothing {ε : Type} (wrap : ConversionError → ε)
    (b : Budget) :
    (∀ limit, b.timeout = none → b.maxStates = some limit →
      (∀ N : NFA, (Bounded.within b (N.determinizeWith (Bounded.meter wrap))).1 =
        if N.determinize.size ≤ limit then .ok N.determinize
        else .error (wrap (.memory b.operation (limit + 1) limit))) ∧
      ∀ E : EpsilonNFA, (Bounded.within b (E.determinizeWith (Bounded.meter wrap))).1 =
        if E.determinize.size ≤ limit then .ok E.determinize
        else .error (wrap (.memory b.operation (limit + 1) limit))) ∧
    (∀ (N : NFA) (D : DFA),
      (Bounded.within b (N.determinizeWith (Bounded.meter wrap))).1 = .ok D → D = N.determinize) ∧
    (∀ (E : EpsilonNFA) (D : DFA),
      (Bounded.within b (E.determinizeWith (Bounded.meter wrap))).1 = .ok D → D = E.determinize) ∧
    ∀ D D' : DFA,
      (Bounded.within b (D.minimizeWith (Bounded.meter wrap))).1 = .ok D' → D' = D.minimize := by
  have hmeters := meters_returning (Bounded.meter wrap)
  refine ⟨fun limit htimeout hlimit => ⟨?_, ?_⟩, ?_, ?_, ?_⟩
  · exact fun N => N.determinizeWith_of_ceiling htimeout hlimit
  · exact fun E => E.determinizeWith_of_ceiling htimeout hlimit
  · exact fun N _ => Bounded.eq_run_of_returning (hmeters.determinize N)
  · exact fun E _ => Bounded.eq_run_of_returning (hmeters.determinizeDirect E)
  · exact fun D _ => Bounded.eq_run_of_returning (hmeters.minimize D)

/-- The automaton of the words whose third symbol from the end is `a` has eight states when it is
deterministic: a ceiling of eight lets it pass, and one of seven stops it at the eighth state. Its
minimization does not take long enough to be stopped. -/
theorem bounded_constructions_of_third_from_the_end :
    let N : NFA := ⟨.ofList ["0", "1", "2", "3"], .ofText "ab",
      .ofTriples [("0", 'a', "0"), ("0", 'b', "0"), ("0", 'a', "1"), ("1", 'a', "2"),
        ("1", 'b', "2"), ("2", 'a', "3"), ("2", 'b', "3")], "0", .ofList ["3"]⟩
    let budget (limit : Nat) : Budget := .start "to_dfa" (some limit) none fun _ => .zero
    let timed : Budget := .start "minimize" none (some .zero) fun _ => .ofMilliseconds 1
    (Bounded.within (budget 8) (N.determinizeWith (Bounded.meter id))).1 = .ok N.determinize ∧
      (Bounded.within (budget 7) (N.determinizeWith (Bounded.meter id))).1 =
        .error (.memory "to_dfa" 8 7) ∧
      ∃ D, (Bounded.within timed (N.determinize.minimizeWith (Bounded.meter id))).1 = .ok D ∧
        D = N.determinize.minimize := by
  intro N budget timed
  have hsize : N.determinize.size = 8 := by decide +kernel
  have hceiling (limit : Nat) :=
    ((bounded_constructions_make_all_or_nothing id (budget limit)).1 limit rfl rfl).1 N
  simp only [hsize] at hceiling
  have hsome : (Bounded.within timed
      (N.determinize.minimizeWith (Bounded.meter id))).1.toOption.isSome = true := by
    decide +kernel
  obtain ⟨D, hD⟩ := exists_eq_ok_of_isSome hsome
  obtain ⟨-, -, -, hminimize⟩ := bounded_constructions_make_all_or_nothing id timed
  exact ⟨hceiling 8, hceiling 7, D, hD, hminimize _ D hD⟩

/-- If the deadline has passed whenever the clock is read, a fresh subset construction without a
ceiling is stopped by the first reading if the non-empty sets of states that words lead to, each
with all symbols, make 256 units of work or more, and else makes what it makes without a budget. -/
theorem bounded_constructions_notice_deadline {ε : Type} (wrap : ConversionError → ε)
    (operation : String) (timeout : Duration) (clock : Clock)
    (hover : ∀ reading, timeout.nanoseconds < (clock reading).nanoseconds) :
    (∀ N : NFA, N.WellFormed →
      (Bounded.within (.start operation none (some timeout) clock)
        (N.determinizeWith (Bounded.meter wrap))).1 =
          if 256 ≤ N.alphabet.size * (Set.range N.run \ {∅}).ncard then
            .error (wrap (.timeout operation (clock 0) timeout))
          else .ok N.determinize) ∧
    ∀ E : EpsilonNFA, E.WellFormed →
      (Bounded.within (.start operation none (some timeout) clock)
        (E.determinizeWith (Bounded.meter wrap))).1 =
          if 256 ≤ E.alphabet.size * (Set.range E.run \ {∅}).ncard then
            .error (wrap (.timeout operation (clock 0) timeout))
          else .ok E.determinize := by
  constructor
  · intro N hN
    rw [N.within_determinizeWith, NFA.ncard_reached hN]
    exact Recorded.within_of_deadline N.value_determinizeWith (NFA.work_determinizeWith hN)
      (hover 0)
  · intro E hE
    rw [E.within_determinizeWith, EpsilonNFA.ncard_reached hE]
    exact Recorded.within_of_deadline E.value_determinizeWith (EpsilonNFA.work_determinizeWith hE)
      (hover 0)

/-- Seventeen sets with fifteen symbols are one unit of work short of a reading of the clock, and
sixteen sets with sixteen symbols are as many as it takes. -/
theorem bounded_constructions_of_chains :
    let name (i : Nat) : State := i.repr
    let N : NFA := ⟨.ofList ((List.range 17).map name), .ofText "abcdefghijklmno",
      .ofTriples ((List.range 16).map fun i => (name i, 'a', name (i + 1))), "0", .ofList ["16"]⟩
    let E : EpsilonNFA := ⟨.ofList ((List.range 16).map name), .ofText "abcdefghijklmnop",
      .ofTriples (("0", .epsilon, "1") ::
        (List.range 15).map fun i => (name i, .symbol 'a', name (i + 1))), "0", .ofList ["15"]⟩
    let budget : Budget := .start "to_dfa" none (some .zero) fun _ => .ofMilliseconds 1
    N.WellFormed ∧ E.WellFormed ∧
      (Bounded.within budget (N.determinizeWith (Bounded.meter id))).1 = .ok N.determinize ∧
      (Bounded.within budget (E.determinizeWith (Bounded.meter id))).1 =
        .error (.timeout "to_dfa" (.ofMilliseconds 1) .zero) := by
  intro name N E budget
  have hchain : ∀ i < 16, name i ∈ N.states ∧ name (i + 1) ∈ N.states := by decide +kernel
  have hchain' : ∀ i < 15, name i ∈ E.states ∧ name (i + 1) ∈ E.states := by decide +kernel
  have hN : N.WellFormed := by
    refine NFA.wellFormed_ofTriples (by decide +kernel) (fun q hq => ?_) fun p a q h => ?_
    · obtain rfl : q = "16" := by simpa using hq
      decide +kernel
    obtain ⟨i, hi, hstep⟩ := List.mem_map.mp h
    cases hstep
    obtain ⟨hp, hq⟩ := hchain i (List.mem_range.mp hi)
    exact ⟨hp, by decide +kernel, hq⟩
  have hE : E.WellFormed := by
    refine EpsilonNFA.wellFormed_ofTriples (by decide +kernel) (fun q hq => ?_) fun p l q h => ?_
    · obtain rfl : q = "15" := by simpa using hq
      decide +kernel
    rcases List.mem_cons.mp h with hempty | h
    · cases hempty
      exact ⟨by decide +kernel, fun b hb => (by cases hb), by decide +kernel⟩
    · obtain ⟨i, hi, hstep⟩ := List.mem_map.mp h
      cases hstep
      obtain ⟨hp, hq⟩ := hchain' i (List.mem_range.mp hi)
      exact ⟨hp, fun b hb => Label.symbol.inj hb ▸ by decide +kernel, hq⟩
  have hsizes : N.alphabet.size * N.determinize.size = 255 ∧
      E.alphabet.size * E.determinize.size = 256 := by
    decide +kernel
  obtain ⟨hnfa, hepsilon⟩ := bounded_constructions_notice_deadline id "to_dfa" .zero
    (fun _ => .ofMilliseconds 1) fun _ => by decide
  have hmade := hnfa N hN
  have hstopped := hepsilon E hE
  rw [NFA.ncard_reached hN, hsizes.1] at hmade
  rw [EpsilonNFA.ncard_reached hE, hsizes.2] at hstopped
  exact ⟨hN, hE, hmade, hstopped⟩

end RegularLanguages
