import RegularLanguages.Proofs.BoundedConstructions
import RegularLanguages.Proofs.Engines
import RegularLanguages.Proofs.RepeatedMinimization

/-!
# Answers within a ceiling

An engine looks at the size of a source before it converts it, and at the size of most of its
results. The other results are made of automata that were looked at and have no more states than
these: an automaton without its unreachable states, a minimal one, and one that is deterministic
already. So whatever an engine answers keeps its ceiling, also from memory. Making an automaton
deterministic is refused for its size only if the source is too large or has to be converted and the
subset construction is too large.
-/

namespace RegularLanguages

open Automaton (SameParts)

/-! ## Automata with the same parts -/

namespace NFA

variable {N N' : NFA}

/-- The parts decide which states a word leads to. -/
theorem run_eq_of_sameParts (h : SameParts N N') : N.run = N'.run := by
  funext w
  apply Std.ExtTreeSet.ext_mem
  intro q
  rw [mem_run, mem_run, h.initial_eq]
  exact ⟨fun htrace => htrace.mono fun p l q => (h.moves_iff p l q).mp,
    fun htrace => htrace.mono fun p l q => (h.moves_iff p l q).mpr⟩

/-- The parts decide how many states the subset construction has. -/
theorem size_determinize_of_sameParts (h : SameParts N N') (hN : N.WellFormed) :
    N.determinize.size = N'.determinize.size := by
  rw [← ncard_reached hN, ← ncard_reached (h.wellFormed hN), run_eq_of_sameParts h]

end NFA

/-- The parts decide those of the automaton without empty moves. -/
theorem EpsilonNFA.sameParts_toNFA_of_sameParts {E E' : EpsilonNFA} (h : SameParts E E')
    (hE : E.WellFormed) : SameParts E.toNFA E'.toNFA := by
  have hempty {p q : State} : Trace E.Moves p [] q ↔ Trace E'.Moves p [] q :=
    ⟨fun htrace => htrace.mono fun p l q => (h.moves_iff p l q).mp,
      fun htrace => htrace.mono fun p l q => (h.moves_iff p l q).mpr⟩
  refine ⟨h.states_eq, h.alphabet_eq, fun p l q => ?_, h.initial_eq,
    Std.ExtTreeSet.ext_mem fun q => ?_⟩
  · rw [NFA.moves_iff, NFA.moves_iff]
    refine exists_congr fun a => and_congr_right fun _ => ?_
    rw [mem_successors_toNFA hE, mem_successors_toNFA (h.wellFormed hE), h.states_eq]
    simp only [hempty, ← moves_iff, h.moves_iff]
  · rw [mem_finals_toNFA, mem_finals_toNFA, h.states_eq, h.finals_eq]
    simp only [hempty]

/-- An automaton without its unreachable states has no more states. -/
theorem Automaton.WellFormed.size_trimmed_le {T : Type} [TransitionTable T] {A : Automaton T}
    (hA : A.WellFormed) : A.trimmed.size ≤ A.size := by
  refine FiniteSet.size_le_of_injOn id (fun q hq => ?_) fun _ _ _ _ => id
  rw [hA.states_trimmed] at hq
  exact hA.mem_of_mem_reachableStates hq

namespace AnyAutomaton

variable {A B : AnyAutomaton} {limit : Nat}

/-- Without its unreachable states, an automaton of any kind has no more states. -/
theorem size_trimmed_le (hA : A.WellFormed) : A.trimmed.size ≤ A.size := by
  cases A with
  | dfa A | nfa A | epsilonNFA A => exact Automaton.WellFormed.size_trimmed_le hA

/-- The deterministic automaton as which an automaton is read has as many states. -/
theorem ReadAs.size_eq {D : DFA} (h : A.ReadAs D) : D.size = A.size := by
  cases A with
  | dfa A | nfa A | epsilonNFA A => exact congrArg Std.ExtTreeSet.size (SameParts.states_eq h).symm

/-- Automata with the same parts have as many states. -/
theorem Alike.size_eq (h : A.Alike B) : A.size = B.size := by
  cases h with
  | dfa h | nfa h | epsilonNFA h => exact congrArg Std.ExtTreeSet.size h.states_eq

/-- Automata with the same parts are deterministic together. -/
theorem Alike.isDeterministic (h : A.Alike B) (hA : A.IsDeterministic) : B.IsDeterministic := by
  cases h with
  | dfa h | nfa h | epsilonNFA h => exact h.isDeterministic hA

/-- Having the same parts is symmetric. -/
theorem Alike.symm (h : A.Alike B) : B.Alike A := by
  cases h with
  | dfa h => exact .dfa h.symm
  | nfa h => exact .nfa h.symm
  | epsilonNFA h => exact .epsilonNFA h.symm

/-- Automata with the same parts have the same parts without empty moves. -/
theorem Alike.sameParts_toNFA (h : A.Alike B) (hA : A.WellFormed) :
    SameParts A.toNFA B.toNFA := by
  cases h with
  | @dfa D D' h => exact (D.sameParts_toNFA.symm.trans h).trans D'.sameParts_toNFA
  | nfa h => exact h
  | epsilonNFA h => exact EpsilonNFA.sameParts_toNFA_of_sameParts h hA

/-- An automaton has too many states, or it is not deterministic and its subset construction has. -/
def Exceeds (limit : Nat) (A : AnyAutomaton) : Prop :=
  limit < A.size ∨ ¬A.IsDeterministic ∧ limit < A.toNFA.determinize.size

/-- Automata with the same parts exceed the same limits. -/
theorem Alike.exceeds (h : A.Alike B) (hA : A.WellFormed) (hlimit : A.Exceeds limit) :
    B.Exceeds limit := by
  have hparts := h.sameParts_toNFA hA
  have hnfa : A.toNFA.WellFormed := (toNFA_spec hA).1
  rw [Exceeds, ← h.size_eq, ← NFA.size_determinize_of_sameParts hparts hnfa]
  exact hlimit.imp_right fun hlarge =>
    ⟨mt h.symm.isDeterministic hlarge.1, hlarge.2⟩

end AnyAutomaton

/-! ## Values within a ceiling -/

namespace Computation

variable {α β : Type} {c : Computation α} {limit : Nat} {post post' : α → Prop}

/-- Within every budget with the ceiling, the values of a computation have the property. -/
structure Respects (c : Computation α) (limit : Nat) (post : α → Prop) : Prop where
  result : ∀ b rest x, b.maxStates = some limit → Bounded.within b c = (.ok x, rest) →
    rest.maxStates = some limit ∧ post x

namespace Respects

/-- A computation that only returns a value keeps every ceiling. -/
theorem pure {x : α} (h : post x) : Respects (Pure.pure x) limit post := by
  constructor
  rintro b rest y hb hrun
  cases hrun
  exact ⟨hb, h⟩

/-- A computation and what follows it keep a ceiling together, if the one does and the other does
for all values that the first can have. -/
theorem bind {f : α → Computation β} {goal : β → Prop} (hc : Respects c limit post)
    (hf : ∀ x, post x → Respects (f x) limit goal) : Respects (c >>= f) limit goal := by
  constructor
  intro b rest y hb hrun
  rcases hfirst : Bounded.within b c with ⟨e | x, mid⟩
  · rw [Bounded.within_bind_of_error hfirst] at hrun
    cases hrun
  · rw [Bounded.within_bind_of_ok hfirst] at hrun
    obtain ⟨hmid, hx⟩ := hc.result b mid x hb hfirst
    exact (hf x hx).result mid rest y hmid hrun

/-- What holds of the values within a ceiling may be weakened. -/
theorem mono (hc : Respects c limit post) (hpost : ∀ x, post x → post' x) :
    Respects c limit post' :=
  ⟨fun b rest x hb hrun => (hc.result b rest x hb hrun).imp_right (hpost x)⟩

/-- A step outside the budget. -/
theorem ofExcept (result : Except RequestError α) :
    Respects (Bounded.ofExcept result) limit fun x => result = .ok x := by
  constructor
  rintro b rest x hb hrun
  cases hrun
  exact ⟨hb, rfl⟩

/-- A computation that comes to a value keeps the ceiling with all numbers it reports. -/
theorem of_charging {d : Recorded α}
    (h : (Lockstep.charging RequestError.conversion).Related c d) :
    Respects c limit fun x => x = d.value ∧ ∀ count ∈ d.counts, count ≤ limit := by
  constructor
  intro b rest x hb hrun
  rw [h b] at hrun
  obtain ⟨rfl, hcharge⟩ := Recorded.chargeAll_of_within_eq_ok hrun
  obtain ⟨hrest, hcounts⟩ := Budget.le_of_chargeAll_eq_ok hb hcharge
  exact ⟨hrest, rfl, fun count hcount => hcounts count (Recorded.mem_counts.mp hcount)⟩

/-- A computation that counts its states one by one comes to a value only if they are not too
many. -/
theorem of_counts {d : Recorded α} {x : α} {size : Nat}
    (h : (Lockstep.charging RequestError.conversion).Related c d) (hvalue : d.value = x)
    (hcounts : d.counts = List.range' 1 size) :
    Respects c limit fun y => y = x ∧ size ≤ limit := by
  refine (of_charging h).mono fun y hy => ⟨hy.1.trans hvalue, ?_⟩
  by_contra hlarge
  have hmem : size ∈ d.counts := by
    rw [hcounts, List.mem_range'_1]
    omega
  exact hlarge (hy.2 size hmem)

end Respects

/-- What comes of reports within the budget of a request is decided by what is recorded. -/
theorem meters_charging_requests :
    (Lockstep.charging RequestError.conversion).Meters meter Meter.recorder :=
  Lockstep.meters_charging RequestError.conversion

/-- Looking at a number of states lets only those pass that do not exceed the ceiling. -/
theorem respects_allow (states : Nat) :
    (meter.allow states).Respects limit fun _ => states ≤ limit := by
  refine (Respects.of_charging (meters_charging_requests.allow states)).mono fun _ h => ?_
  exact h.2 states (Recorded.mem_counts.mpr List.mem_cons_self)

/-- A target whose size is looked at does not exceed the ceiling. -/
theorem respects_allowed (toAny : α → AnyAutomaton) (target : α) :
    (allowed toAny target).Respects limit fun x => (toAny x).size ≤ limit :=
  (respects_allow (toAny target).size).bind fun _ hsize => .pure hsize

/-- Within a ceiling, the subset construction makes the deterministic automaton, and this keeps the
ceiling. -/
theorem respects_determinizeWith (N : NFA) :
    (N.determinizeWith meter).Respects limit fun D => D = N.determinize ∧ D.size ≤ limit :=
  (Respects.of_counts (meters_charging_requests.determinize N) N.value_determinizeWith
    N.counts_determinizeWith).mono fun _ h => ⟨h.1, h.1 ▸ h.2⟩

/-- Within a ceiling, the subset construction through closures makes an automaton that keeps the
ceiling. -/
theorem respects_determinizeDirect (E : EpsilonNFA) :
    (E.determinizeWith meter).Respects limit fun D => D.size ≤ limit :=
  (Respects.of_counts (meters_charging_requests.determinizeDirect E) E.value_determinizeWith
    E.counts_determinizeWith).mono fun _ h => h.1 ▸ h.2

/-- Within a ceiling, minimization makes the minimal automaton. -/
theorem respects_minimizeWith (D : DFA) :
    (D.minimizeWith meter).Respects limit fun D' => D' = D.minimize :=
  (Respects.of_charging (meters_charging_requests.minimize D)).mono
    fun _ h => h.1.trans D.value_minimizeWith

/-- A source that is not too large is made deterministic with no more states than are allowed. -/
theorem respects_determinize {A : AnyAutomaton} (hA : A.WellFormed) (hsize : A.size ≤ limit) :
    (determinize A).Respects limit fun D => D.WellFormed ∧ D.size ≤ limit := by
  unfold determinize
  cases hread : A.asDeterministic? with
  | some D =>
    have hparts := AnyAutomaton.readAs_of_asDeterministic? hA hread
    exact .pure ⟨hparts.wellFormed hA, hparts.size_eq.trans_le hsize⟩
  | none =>
    have hN : A.toNFA.WellFormed := (AnyAutomaton.toNFA_spec hA).1
    exact (respects_determinizeWith A.toNFA).mono fun D hD =>
      ⟨hD.1 ▸ (NFA.determinize_spec hN).1, hD.2⟩

/-- A checked computation looks at the size of its source. -/
theorem respects_checked {γ : Type} {generator : Generator γ} {config : EngineConfig}
    {operation : Operation} {A : AnyAutomaton} {toAny : α → AnyAutomaton} {negated : Bool}
    (hc : A.size ≤ limit → c.Respects limit post) :
    (checked generator config operation A toAny negated c).Respects limit fun x =>
      A.size ≤ limit ∧ post x := by
  have hvalidate (target : AnyAutomaton) :
      (validate generator config operation A target negated).Respects limit fun _ => True := by
    rcases validate_cases generator config operation A target negated with hpass | ⟨w, hfail⟩
    · rw [hpass]
      exact .pure trivial
    · rw [hfail]
      exact (Respects.ofExcept (.error _)).mono fun _ _ => trivial
  exact (respects_allow A.size).bind fun _ hsize => (hc hsize).bind fun x hx =>
    (hvalidate (toAny x)).bind fun _ _ => .pure ⟨hsize, hx⟩

end Computation

namespace Request

open RegularLanguages.Computation

variable {γ : Type} {generator : Generator γ} {config : EngineConfig} {r : Request}

/-- What is computed for a request with a well-formed source keeps the ceiling, and so does the
source. -/
theorem respects_compute (generator : Generator γ) (config : EngineConfig) (limit : Nat)
    (hr : r.WellFormed) :
    (r.compute generator config).Respects limit fun result =>
      (∀ A, r.source? = some A → A.size ≤ limit) ∧ (r.resultType.toAny result).size ≤ limit := by
  have hsource {A : AnyAutomaton} {Q : Prop} (h : r.source? = some A) (hpost : A.size ≤ limit ∧ Q) :
      (∀ B, r.source? = some B → B.size ≤ limit) ∧ Q :=
    ⟨fun B hB => Option.some.inj (h.symm.trans hB) ▸ hpost.1, hpost.2⟩
  cases r with
  | toNFA A =>
    exact (respects_checked fun _ => respects_allowed _ _).mono fun _ => hsource rfl
  | toDFA A =>
    refine (respects_checked fun hsize => ?_).mono fun _ => hsource rfl
    exact (respects_determinize (hr A rfl) hsize).mono fun _ h => h.2
  | toDFADirect A =>
    exact (respects_checked fun _ => respects_determinizeDirect _).mono fun _ => hsource rfl
  | minimize A =>
    refine (respects_checked fun hsize => ?_).mono fun _ => hsource rfl
    refine (respects_determinize (hr A rfl) hsize).bind fun D hD => ?_
    refine (respects_minimizeWith D).mono fun D' hD' => ?_
    rw [hD']
    exact (DFA.size_minimize_le hD.1).trans hD.2
  | trim A =>
    have htrimmed := AnyAutomaton.size_trimmed_le (hr A rfl)
    cases A with
    | dfa A | nfa A | epsilonNFA A =>
      refine (respects_checked fun hsize => ?_).mono fun _ => hsource rfl
      exact .pure (htrimmed.trans hsize)
  | complement A =>
    refine (respects_checked fun _ => ?_).mono fun _ => hsource rfl
    exact (Respects.ofExcept _).bind fun D _ => respects_allowed _ D
  | convert A kind =>
    cases kind with
    | dfa =>
      refine (respects_checked fun hsize => ?_).mono fun _ => hsource rfl
      exact (respects_determinize (hr A rfl) hsize).bind fun D _ => respects_allowed _ _
    | nfa | epsilonNFA =>
      exact (respects_checked fun _ => respects_allowed _ _).mono fun _ => hsource rfl
  | compile pattern alphabet =>
    refine (Respects.ofExcept _).bind fun E _ => ?_
    exact (respects_allowed _ E).mono fun _ hsize => ⟨fun _ hA => (by cases hA), hsize⟩

/-- A result that comes of a request with a well-formed source keeps the ceiling of the engine, and
so does the source. -/
theorem ComesTo.size_le {result : r.Result} (h : r.ComesTo generator config result)
    (hr : r.WellFormed) :
    (∀ A, r.source? = some A → A.size ≤ config.maxStates) ∧
      (r.resultType.toAny result).size ≤ config.maxStates := by
  obtain ⟨clock, rest, hrun⟩ := h
  exact ((respects_compute generator config config.maxStates hr).result _ rest result rfl hrun).2

end Request

/-! ## Failures for the number of states -/

/-- An error that says that there are too many states. -/
def RequestError.IsMemory (e : RequestError) : Prop :=
  ∃ operation states limit, e = .conversion (.memory operation states limit)

namespace Computation

variable {α β γ : Type} {c : Computation α} {f : α → Computation β} {A : AnyAutomaton}
  {generator : Generator γ} {config : EngineConfig} {b rest : Budget} {limit : Nat}

/-- Within the budget, the computation fails because there are too many states. -/
def RunsOut (c : Computation α) (b : Budget) : Prop :=
  ∃ operation states limit,
    (Bounded.within b c).1 = .error (.conversion (.memory operation states limit))

/-- A computation that comes to a value does not run out of states. -/
theorem not_runsOut_of_ok {x : α} (h : Bounded.within b c = (.ok x, rest)) : ¬c.RunsOut b := by
  rintro ⟨operation, states, limit, herror⟩
  rw [h] at herror
  cases herror

/-- A computation that fails runs out of states exactly if its error says so. -/
theorem runsOut_of_error {e : RequestError} (h : Bounded.within b c = (.error e, rest)) :
    c.RunsOut b ↔ e.IsMemory := by
  simp only [RunsOut, h, Except.error.injEq, RequestError.IsMemory]

/-- After a value, a computation runs out of states exactly if what follows the value does. -/
theorem runsOut_bind_of_ok {x : α} (h : Bounded.within b c = (.ok x, rest)) :
    (c >>= f).RunsOut b ↔ (f x).RunsOut rest := by
  rw [RunsOut, Bounded.within_bind_of_ok h]
  rfl

/-- A computation goes on without running out of states if what follows does not. -/
theorem runsOut_bind_iff (hf : ∀ x rest, ¬(f x).RunsOut rest) :
    (c >>= f).RunsOut b ↔ c.RunsOut b := by
  rcases hrun : Bounded.within b c with ⟨e | x, rest⟩
  · rw [runsOut_of_error hrun, runsOut_of_error (Bounded.within_bind_of_error hrun)]
  · rw [runsOut_bind_of_ok hrun]
    exact iff_of_false (hf x rest) (not_runsOut_of_ok hrun)

/-- Looking at a size runs out of states if it exceeds the ceiling, and else changes nothing. -/
theorem within_allow (hlimit : b.maxStates = some limit) (states : Nat) :
    Bounded.within b (meter.allow states) =
      (if limit < states then .error (.conversion (.memory b.operation states limit)) else .ok (),
        b) := by
  change ((b.allow states).mapError RequestError.conversion, b) = _
  rw [Budget.allow_of_maxStates hlimit]
  split <;> rfl

/-- The check does not run out of states. -/
theorem not_runsOut_validate (operation : Operation) (target : AnyAutomaton) (negated : Bool) :
    ¬(validate generator config operation A target negated).RunsOut b := by
  rcases validate_cases generator config operation A target negated with hpass | ⟨w, hfail⟩
  · rw [hpass]
    exact not_runsOut_of_ok rfl
  · rw [hfail]
    exact (runsOut_of_error rfl).not.mpr fun ⟨_, _, _, h⟩ => by cases h

/-- A checked computation runs out of states if its source has too many or if what it computes runs
out of states. -/
theorem runsOut_checked_iff {operation : Operation} {toAny : α → AnyAutomaton} {negated : Bool}
    (hlimit : b.maxStates = some limit) :
    (checked generator config operation A toAny negated c).RunsOut b ↔
      limit < A.size ∨ c.RunsOut b := by
  have hallow := within_allow hlimit A.size
  by_cases hsize : limit < A.size
  · rw [if_pos hsize] at hallow
    have herror : Bounded.within b (checked generator config operation A toAny negated c) = _ :=
      Bounded.within_bind_of_error hallow
    exact iff_of_true ((runsOut_of_error herror).mpr ⟨_, _, _, rfl⟩) (.inl hsize)
  · rw [if_neg hsize] at hallow
    have hcheck (x : α) (rest : Budget) :
        ¬(validate generator config operation A (toAny x) negated >>=
          fun _ => Pure.pure x).RunsOut rest :=
      (runsOut_bind_iff fun _ _ => not_runsOut_of_ok rfl).not.mpr (not_runsOut_validate _ _ _)
    exact (runsOut_bind_of_ok hallow).trans
      ((runsOut_bind_iff hcheck).trans (or_iff_right hsize).symm)

/-- Without a time limit, making a well-formed automaton deterministic runs out of states if it is
not deterministic already and the subset construction has too many. -/
theorem runsOut_determinize_iff (hA : A.WellFormed) (htimeout : b.timeout = none)
    (hlimit : b.maxStates = some limit) :
    (determinize A).RunsOut b ↔ ¬A.IsDeterministic ∧ limit < A.toNFA.determinize.size := by
  by_cases hdeterministic : A.IsDeterministic
  · obtain ⟨D, hD, -⟩ := hdeterministic.exists_asDeterministic? hA
    have hok : Bounded.within b (determinize A) = (.ok D, b) := by
      rw [determinize, hD]
      rfl
    exact iff_of_false (not_runsOut_of_ok hok) fun h => h.1 hdeterministic
  · have hresult : (Bounded.within b (determinize A)).1 =
        if A.toNFA.determinize.size ≤ limit then .ok A.toNFA.determinize
        else .error (.conversion (.memory b.operation (limit + 1) limit)) := by
      rw [determinize, AnyAutomaton.asDeterministic?_eq_none hA hdeterministic]
      exact A.toNFA.determinizeWith_of_ceiling htimeout hlimit
    by_cases hsize : A.toNFA.determinize.size ≤ limit
    · rw [if_pos hsize] at hresult
      exact iff_of_false (not_runsOut_of_ok (Prod.ext hresult rfl)) fun h =>
        Nat.not_lt.mpr hsize h.2
    · rw [if_neg hsize] at hresult
      exact iff_of_true ((runsOut_of_error (Prod.ext hresult rfl)).mpr ⟨_, _, _, rfl⟩)
        ⟨hdeterministic, Nat.lt_of_not_le hsize⟩

end Computation

namespace Request

variable {γ : Type} {generator : Generator γ} {config : EngineConfig} {A : AnyAutomaton}

/-- Without a time limit, the conversion of a well-formed automaton into a deterministic one runs
out of states if the automaton exceeds the ceiling. -/
theorem runsOut_toDFA_iff (hA : A.WellFormed) {b : Budget} {limit : Nat}
    (htimeout : b.timeout = none) (hlimit : b.maxStates = some limit) :
    ((toDFA A).compute generator config).RunsOut b ↔ A.Exceeds limit :=
  (Computation.runsOut_checked_iff hlimit).trans
    (or_congr_right (Computation.runsOut_determinize_iff hA htimeout hlimit))

/-- Without a time limit, an automaton that was made deterministic does not exceed the ceiling. -/
theorem ComesTo.not_exceeds (hA : A.WellFormed) (hconfig : config.timeout = none)
    {result : (toDFA A).Result} (h : (toDFA A).ComesTo generator config result) :
    ¬A.Exceeds config.maxStates := by
  obtain ⟨clock, rest, hrun⟩ := h
  exact (runsOut_toDFA_iff hA hconfig rfl).not.mp (Computation.not_runsOut_of_ok hrun)

end Request

/-! ## Engines -/

namespace Engine

variable {δ γ : Type} [DecidableEq δ] {engine : Engine δ γ} {asked : Request → Prop}

/-- What an engine that was asked about well-formed sources answers to a request with a well-formed
source keeps its ceiling, whatever the digests. -/
theorem Computed.size_result_le (h : engine.Computed asked)
    (hasked : ∀ s, asked s → s.WellFormed) {r : Request} (hr : r.WellFormed) {clock : Clock}
    {result : r.Result} (hanswer : (engine.request clock r).1 = .ok result) :
    (r.resultType.toAny result).size ≤ engine.config.maxStates := by
  obtain ⟨s, kept, hs, hkept, -, hresult⟩ := h.exists_of_answer hanswer
  have hs : s.WellFormed := hs.elim (hasked s) fun heq => heq ▸ hr
  exact hresult ▸ (hkept.size_le hs).2

/-- What an engine answers to a request with a well-formed source keeps its ceiling, and so does the
source, if digests tell apart what it was asked for. -/
theorem Computed.size_le_of_answer (h : engine.Computed asked) {r : Request} (hr : r.WellFormed)
    (happart : TellsApart engine.digest asked r) {clock : Clock} {result : r.Result}
    (hanswer : (engine.request clock r).1 = .ok result) :
    (∀ A, r.source? = some A → A.size ≤ engine.config.maxStates) ∧
      (r.resultType.toAny result).size ≤ engine.config.maxStates := by
  obtain ⟨s, kept, hkept, hoperation, hsubject, hresult⟩ := h.exists_same happart hanswer
  obtain ⟨hsource, hsize⟩ := hkept.size_le (hr.of_subject_eq hsubject)
  refine ⟨fun A hA => ?_, hresult ▸ hsize⟩
  rcases Request.of_subject_eq hsubject with rfl | ⟨A', B, hA', hB, hshape⟩
  · exact hsource A hA
  · obtain rfl := Option.some.inj (hA.symm.trans hA')
    rw [(AnyAutomaton.alike_of_shape_eq hshape).size_eq]
    exact hsource B hB

/-- Without a time limit, an engine refuses to make a well-formed automaton deterministic for its
size if the automaton exceeds the ceiling, if digests tell apart what it was asked for. -/
theorem Computed.isMemory_answer_iff (h : engine.Computed asked)
    (hconfig : engine.config.timeout = none) {A : AnyAutomaton} (hA : A.WellFormed)
    (happart : TellsApart engine.digest asked (.toDFA A)) (clock : Clock) :
    (∃ operation states limit, (engine.request clock (.toDFA A)).1 =
      .error (.conversion (.memory operation states limit))) ↔
        A.Exceeds engine.config.maxStates := by
  cases hanswer : (engine.request clock (.toDFA A)).1 with
  | ok result =>
    refine iff_of_false (fun ⟨_, _, _, herror⟩ => by cases herror) ?_
    obtain ⟨s, kept, hkept, hoperation, hsubject, -⟩ := h.exists_same happart hanswer
    rcases Request.of_subject_eq hsubject with rfl | ⟨_, B, hsource, hB, hshape⟩
    · exact hkept.not_exceeds hA hconfig
    · obtain rfl := Option.some.inj hsource
      obtain rfl := Request.eq_of_source? (r := .toDFA B) hoperation rfl hB
      have halike := AnyAutomaton.alike_of_shape_eq hshape
      obtain ⟨-, -, hwellFormed, -⟩ := AnyAutomaton.of_shape_eq hshape
      exact mt (halike.exceeds hA) (hkept.not_exceeds (hwellFormed hA) hconfig)
  | error e =>
    obtain ⟨⟨rest, hrun⟩, -⟩ := computed_of_error hanswer
    have hrunsOut : ((Request.toDFA A).compute engine.generator engine.config).RunsOut
        (engine.budget clock (.toDFA A)) ↔ A.Exceeds engine.config.maxStates :=
      Request.runsOut_toDFA_iff hA hconfig rfl
    rw [Computation.runsOut_of_error hrun] at hrunsOut
    simpa only [Except.error.injEq, RequestError.IsMemory] using hrunsOut

/-- Whatever an engine was asked before, if it answers a request with a well-formed source, then
neither the source nor the result exceeds its ceiling. Without a time limit, it refuses to make a
well-formed automaton deterministic for the number of states if the automaton has too many, or is
not deterministic and the subset construction without empty moves has too many. In both cases no
earlier request is about another subject with the same digest. That the result does not exceed the
ceiling holds for all digests if the earlier requests have well-formed sources too. -/
theorem answers_keep_ceiling (digest : Subject → δ) (generator : Generator γ)
    (config : EngineConfig) (history : List Event) :
    let engine := (start digest generator config).after history
    (∀ (clock : Clock) (r : Request), r.WellFormed →
      ∀ result, (engine.request clock r).1 = .ok result →
        ((∀ s, Asked history s → s.WellFormed) →
          (r.resultType.toAny result).size ≤ config.maxStates) ∧
        (TellsApart digest (Asked history) r →
          (∀ A, r.source? = some A → A.size ≤ config.maxStates) ∧
            (r.resultType.toAny result).size ≤ config.maxStates)) ∧
    (config.timeout = none → ∀ (clock : Clock) (A : AnyAutomaton), A.WellFormed →
      TellsApart digest (Asked history) (.toDFA A) →
        ((∃ operation states limit, (engine.request clock (.toDFA A)).1 =
            .error (.conversion (.memory operation states limit))) ↔
          config.maxStates < A.size ∨
            ¬A.IsDeterministic ∧ config.maxStates < A.toNFA.determinize.size)) := by
  intro engine
  have hcomputed : engine.Computed (Asked history) :=
    (computed_start digest generator config).after fun _ => id
  obtain ⟨hdigest, -, hconfig⟩ := (start digest generator config).settings_after history
  constructor
  · intro clock r hr result hanswer
    refine ⟨fun hasked => ?_, fun happart => ?_⟩
    · have hsize := hcomputed.size_result_le hasked hr hanswer
      rwa [hconfig] at hsize
    · have hsizes := hcomputed.size_le_of_answer hr (hdigest ▸ happart) hanswer
      rwa [hconfig] at hsizes
  · intro htimeout clock A hA happart
    have hrefused := hcomputed.isMemory_answer_iff (hconfig ▸ htimeout) hA (hdigest ▸ happart) clock
    rwa [hconfig] at hrefused

/-- With a ceiling of five, the automaton with four states for the words whose third symbol from the
end is `a` is answered from memory when it is asked for again, also if digests tell nothing apart,
but it is not made deterministic, since that takes eight states. -/
theorem answers_of_third_from_the_end :
    let N : NFA := ⟨.ofList ["0", "1", "2", "3"], .ofText "ab",
      .ofTriples [("0", 'a', "0"), ("0", 'b', "0"), ("0", 'a', "1"), ("1", 'a', "2"),
        ("1", 'b', "2"), ("2", 'a', "3"), ("2", 'b', "3")], "0", .ofList ["3"]⟩
    let config : EngineConfig := { EngineConfig.standard with maxStates := 5 }
    let history : List Event := [.request (fun _ => .zero) (.toNFA N)]
    let engine := (new config).after history
    let confusing := (start (fun _ => ()) Wyrand.generator config).after history
    config.timeout = none ∧ N.WellFormed ∧ (∀ r, TellsApart id (Asked history) r) ∧
      (∀ s, Asked history s → s.WellFormed) ∧
      (∃ result : NFA, (engine.request (fun _ => .zero) (.toNFA N)).1 = .ok result ∧
        N.size ≤ 5 ∧ result.size ≤ 5) ∧
      (∃ result : NFA, (confusing.request (fun _ => .zero) (.toNFA N)).1 = .ok result ∧
        result.size ≤ 5) ∧
      ∃ operation states limit, (engine.request (fun _ => .zero) (.toDFA N)).1 =
        .error (.conversion (.memory operation states limit)) := by
  intro N config history engine confusing
  have hN : N.WellFormed := by
    apply NFA.wellFormed_ofTriples <;> simp_all [Alphabet.ofText]
    grind
  have hr : (Request.toNFA N).WellFormed := fun A hA => Option.some.inj hA ▸ hN
  have happart (r : Request) : TellsApart id (Asked history) r := fun _ _ => id
  have hasked (s : Request) (hs : Asked history s) : s.WellFormed := by
    obtain ⟨clock, hmem⟩ := hs
    obtain ⟨-, rfl⟩ := Event.request.inj (List.mem_singleton.mp hmem)
    exact hr
  have hsome : (engine.request (fun _ => .zero) (.toNFA N)).1.toOption.isSome = true := by
    decide +kernel
  have hconfusing :
      (confusing.request (fun _ => .zero) (.toNFA N)).1.toOption.isSome = true := by
    decide +kernel
  have hlarge : 5 < N.determinize.size := by decide +kernel
  have hmany : ¬AnyAutomaton.IsDeterministic N := fun h => by
    have hsame := h.moves_unique "0" 'a' "0" "1" (NFA.moves_symbol.mpr (by decide +kernel))
      (NFA.moves_symbol.mpr (by decide +kernel))
    exact absurd hsame (by decide)
  obtain ⟨hkept, hrefused⟩ := answers_keep_ceiling id Wyrand.generator config history
  obtain ⟨hconfused, -⟩ := answers_keep_ceiling (fun _ => ()) Wyrand.generator config history
  obtain ⟨result, hanswer⟩ := exists_eq_ok_of_isSome hsome
  obtain ⟨result', hanswer'⟩ := exists_eq_ok_of_isSome hconfusing
  obtain ⟨hsource, hsize⟩ := (hkept _ _ hr result hanswer).2 (happart _)
  exact ⟨rfl, hN, happart, hasked, ⟨result, hanswer, hsource N rfl, hsize⟩,
    ⟨result', hanswer', (hconfused _ _ hr result' hanswer').1 hasked⟩,
    (hrefused rfl _ N hN (happart _)).mpr (.inr ⟨hmany, hlarge⟩)⟩

end Engine

end RegularLanguages
