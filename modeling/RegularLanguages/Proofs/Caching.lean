import RegularLanguages.Proofs.Engines

/-!
# Caches do not show

Without a time limit, what is computed for a request does not depend on what the clock shows, and
so only on the conversion and its input. A remembered result was computed for an earlier request
with the same key. If digests are equal for equal inputs only, that request was the same, so that
an engine answers every request like an engine that has answered nothing yet.
-/

namespace RegularLanguages

/-! ## Computations without a time limit -/

/-- Two budgets without a time limit that allow the same sizes. -/
structure Budget.Alike (b b' : Budget) : Prop where
  timeout_left : b.timeout = none
  timeout_right : b'.timeout = none
  operation_eq : b.operation = b'.operation
  maxStates_eq : b.maxStates = b'.maxStates

namespace Computation

variable {α : Type}

/-- Two computations have the same outcome within budgets without a time limit. -/
def timeless : Lockstep Computation Computation where
  Related c d := ∀ b b' : Budget, b.Alike b' →
    (Bounded.within b c).1 = (Bounded.within b' d).1 ∧
      (Bounded.within b c).2.Alike (Bounded.within b' d).2
  pure _ _ _ hb := ⟨rfl, hb⟩
  bind {α β c d f g} hc hf b b' hb := by
    obtain ⟨hresult, hrest⟩ := hc b b' hb
    rcases hleft : Bounded.within b c with ⟨e | x, rest⟩ <;>
      rcases hright : Bounded.within b' d with ⟨e' | x', rest'⟩ <;>
      rw [hleft, hright] at hresult hrest
    · rw [Bounded.within_bind_of_error hleft, Bounded.within_bind_of_error hright]
      obtain rfl := Except.error.inj hresult
      exact ⟨rfl, hrest⟩
    · contradiction
    · contradiction
    · rw [Bounded.within_bind_of_ok hleft, Bounded.within_bind_of_ok hright]
      obtain rfl := Except.ok.inj hresult
      exact hf x rest rest' hrest

/-- Without a time limit, the outcome of the computation does not depend on the clock. -/
def Timeless (c : Computation α) : Prop := timeless.Related c c

/-- The meter of a budget without a time limit does not depend on the clock, so no metered
construction does. -/
theorem meters_timeless : timeless.Meters meter meter where
  tick b b' hb := by
    have htick (b : Budget) : Bounded.within b meter.tick =
        (b.step.1.mapError .conversion, b.step.2) := rfl
    rw [htick, htick, Budget.step_of_timeout_eq_none hb.timeout_left,
      Budget.step_of_timeout_eq_none hb.timeout_right]
    exact ⟨rfl, hb.timeout_left, hb.timeout_right, hb.operation_eq, hb.maxStates_eq⟩
  allow states b b' hb := by
    have hallow (b : Budget) : Bounded.within b (meter.allow states) =
        ((b.allow states).mapError .conversion, b) := rfl
    rw [hallow, hallow, Budget.allow, Budget.allow, hb.operation_eq, hb.maxStates_eq]
    exact ⟨rfl, hb⟩

namespace Timeless

/-- A computation that only returns a value does not depend on the clock. -/
theorem pure (x : α) : Timeless (Pure.pure x) := timeless.pure x

/-- If neither a computation nor what follows it depends on the clock, then both together do not. -/
theorem bind {β : Type} {c : Computation α} {f : α → Computation β} (hc : c.Timeless)
    (hf : ∀ x, (f x).Timeless) : (c >>= f).Timeless := timeless.bind hc hf

/-- A step outside the budget is not concerned with the clock. -/
theorem ofExcept (result : Except RequestError α) : Timeless (Bounded.ofExcept result) :=
  fun _ _ hb => ⟨rfl, hb⟩

/-- Looking at the size of a target does not depend on the clock. -/
theorem allowed (toAny : α → AnyAutomaton) (target : α) :
    (Computation.allowed toAny target).Timeless :=
  bind (meters_timeless.allow _) fun _ => .pure target

/-- Making an automaton deterministic does not depend on the clock. -/
theorem determinize (A : AnyAutomaton) : (Computation.determinize A).Timeless := by
  unfold Computation.determinize
  split
  · exact .pure _
  · exact meters_timeless.determinize _

/-- The check on probe words does not depend on the clock. -/
theorem validate {γ : Type} (generator : Generator γ) (config : EngineConfig)
    (operation : Operation) (source target : AnyAutomaton) (negated : Bool) :
    (Computation.validate generator config operation source target negated).Timeless := by
  rcases validate_cases generator config operation source target negated with hpass | ⟨w, hfail⟩
  · rw [hpass]
    exact .pure ()
  · rw [hfail]
    exact ofExcept (.error _)

/-- A checked computation depends on the clock no more than the computation itself. -/
theorem checked {γ : Type} {generator : Generator γ} {config : EngineConfig}
    {operation : Operation} {source : AnyAutomaton} {toAny : α → AnyAutomaton} {negated : Bool}
    {c : Computation α} (hc : c.Timeless) :
    (Computation.checked generator config operation source toAny negated c).Timeless :=
  bind (meters_timeless.allow _) fun _ => bind hc fun _ =>
    bind (validate _ _ _ _ _ _) fun _ => .pure _

end Timeless

end Computation

namespace Request

open RegularLanguages.Computation

/-- What is computed for a request does not depend on the clock. -/
theorem timeless_compute {γ : Type} (generator : Generator γ) (config : EngineConfig)
    (r : Request) : (r.compute generator config).Timeless := by
  cases r with
  | toNFA A => exact .checked (.allowed _ _)
  | toDFA A => exact .checked (.determinize A)
  | toDFADirect A => exact .checked (meters_timeless.determinizeDirect _)
  | minimize A => exact .checked (.bind (.determinize A) meters_timeless.minimize)
  | trim A => cases A <;> exact .checked (.pure _)
  | complement A => exact .checked (.bind (.ofExcept _) (.allowed _))
  | convert A kind =>
    cases kind with
    | dfa => exact .checked (.bind (.determinize A) fun D => .allowed _ _)
    | nfa | epsilonNFA => exact .checked (.allowed _ _)
  | compile pattern alphabet => exact .bind (.ofExcept _) (.allowed _)

/-- What a request comes to if there is no time limit. -/
def outcome {γ : Type} (generator : Generator γ) (config : EngineConfig) (r : Request) :
    Except RequestError r.Result :=
  (Bounded.within (.start r.operation.name (some config.maxStates) none fun _ => .zero)
    (r.compute generator config)).1

/-- Requests for the same conversion all have a source or all have none. -/
theorem source?_eq_none_of_operation_eq {r s : Request} (h : r.operation = s.operation)
    (hr : r.source? = none) : s.source? = none := by
  obtain ⟨pattern, alphabet, rfl⟩ := exists_compile_of_source? hr
  cases s <;> first | rfl | contradiction

end Request

namespace Engine

variable {δ γ : Type} {engine : Engine δ γ} {asked : Request → Prop}

/-- Among some requests, digests of automata are equal for equal automata only, and digests of
patterns with alphabets for equal ones only. -/
structure Faithful (digest : Subject → δ) (asked : Request → Prop) : Prop where
  source_eq : ∀ r s A B, asked r → asked s → r.source? = some A → s.source? = some B →
    digest (.source A.shape) = digest (.source B.shape) → A = B
  pattern_eq : ∀ text alphabet text' alphabet', asked (.compile text alphabet) →
    asked (.compile text' alphabet') →
    digest (.pattern text alphabet) = digest (.pattern text' alphabet') →
    text = text' ∧ alphabet = alphabet'

/-- Requests with one key are one request. -/
theorem Faithful.eq_of_key_eq {digest : Subject → δ} (h : Faithful digest asked) {r s : Request}
    (hr : asked r) (hs : asked s) (hkey : r.key digest = s.key digest) : r = s := by
  obtain ⟨hoperation, hdigest⟩ := Request.of_key_eq hkey
  cases hsource : r.source? with
  | none =>
    obtain ⟨text, alphabet, rfl⟩ := Request.exists_compile_of_source? hsource
    obtain ⟨text', alphabet', rfl⟩ := Request.exists_compile_of_source?
      (Request.source?_eq_none_of_operation_eq hoperation hsource)
    obtain ⟨rfl, rfl⟩ := h.pattern_eq _ _ _ _ hr hs hdigest
    rfl
  | some A =>
    cases hsource' : s.source? with
    | none =>
      rw [Request.source?_eq_none_of_operation_eq hoperation.symm hsource'] at hsource
      contradiction
    | some B =>
      rw [Request.subject_of_source? hsource, Request.subject_of_source? hsource'] at hdigest
      obtain rfl := h.source_eq r s A B hr hs hsource hsource' hdigest
      exact Request.eq_of_source? hoperation hsource hsource'

/-- Every remembered result is what one of the requests came to. -/
def Keeps (engine : Engine δ γ) (asked : Request → Prop) : Prop :=
  ∀ entry ∈ engine.cache.entries, ∃ r, asked r ∧ ∃ result,
    r.outcome engine.generator engine.config = .ok result ∧
    entry = (r.key engine.digest, ⟨r.resultType, result⟩)

/-- Without a time limit, what is computed for a request is what it comes to. -/
theorem within_compute_eq_outcome (hconfig : engine.config.timeout = none) (clock : Clock)
    (r : Request) :
    (Bounded.within (engine.budget clock r) (r.compute engine.generator engine.config)).1 =
      r.outcome engine.generator engine.config := by
  have halike : (engine.budget clock r).Alike
      (.start r.operation.name (some engine.config.maxStates) none fun _ => .zero) :=
    ⟨hconfig, rfl, rfl, rfl⟩
  exact (r.timeless_compute engine.generator engine.config _ _ halike).1

/-- Without a time limit, what was computed for a request is what it comes to. -/
theorem Computed.keeps (h : engine.Computed asked) (hconfig : engine.config.timeout = none) :
    engine.Keeps asked := by
  intro entry hentry
  obtain ⟨r, result, hasked, ⟨clock, rest, hrun⟩, rfl⟩ := h entry hentry
  have houtcome := within_compute_eq_outcome hconfig clock r
  exact ⟨r, hasked, result, houtcome.symm.trans (congrArg Prod.fst hrun), rfl⟩

variable [DecidableEq δ]

/-- What is remembered under the key of a request is what this request comes to. -/
theorem Keeps.outcome_eq (h : engine.Keeps asked) (hfaithful : Faithful engine.digest asked)
    {r : Request} (hasked : asked r) {result : r.Result}
    (hget : engine.cache.get? r.resultType (r.key engine.digest) = some result) :
    r.outcome engine.generator engine.config = .ok result := by
  obtain ⟨s, hs, kept, hkept, hentry⟩ := h _ (Cache.mem_of_get? hget)
  obtain ⟨hkey, hvalue⟩ := Prod.mk.inj hentry
  obtain rfl := hfaithful.eq_of_key_eq hasked hs hkey
  obtain rfl := eq_of_heq (Sigma.mk.inj hvalue).2
  exact hkept

/-- An engine that keeps what earlier requests came to answers a request by what it comes to. -/
theorem Keeps.request_fst (h : engine.Keeps asked) (hfaithful : Faithful engine.digest asked)
    (hconfig : engine.config.timeout = none) (clock : Clock) {r : Request} (hasked : asked r) :
    (engine.request clock r).1 = r.outcome engine.generator engine.config := by
  have houtcome := within_compute_eq_outcome hconfig clock r
  rcases engine.request_cases clock r with
    ⟨result, hget, hrequest⟩ | ⟨result, rest, -, hrun, hrequest⟩ | ⟨e, rest, -, hrun, hrequest⟩
  · rw [hrequest]
    exact (h.outcome_eq hfaithful hasked hget).symm
  · rw [hrun] at houtcome
    rw [hrequest]
    exact houtcome
  · rw [hrun] at houtcome
    rw [hrequest]
    exact houtcome

/-- The answer to an event, if it is a request. -/
abbrev Response := Option ((r : Request) × Except RequestError r.Result)

/-- What an engine answers to an event. -/
def respond (engine : Engine δ γ) : Event → Response
  | .request clock r => some ⟨r, (engine.request clock r).1⟩
  | .clearCache | .resetStatistics => none

/-- What an engine answers to several events, one after another. -/
def responses (engine : Engine δ γ) : List Event → List Response
  | [] => []
  | event :: history => engine.respond event :: (engine.perform event).responses history

/-- What an event comes to if there is no time limit, whatever happened before. -/
def Event.outcome (generator : Generator γ) (config : EngineConfig) : Event → Response
  | request _ r => some ⟨r, r.outcome generator config⟩
  | clearCache | resetStatistics => none

/-- An event is answered by what it comes to. -/
theorem Keeps.respond_eq (h : engine.Keeps asked) (hfaithful : Faithful engine.digest asked)
    (hconfig : engine.config.timeout = none) {event : Event}
    (hasked : ∀ clock r, event = .request clock r → asked r) :
    engine.respond event = event.outcome engine.generator engine.config := by
  cases event with
  | request clock r =>
    rw [respond, h.request_fst hfaithful hconfig clock (hasked clock r rfl)]
    rfl
  | clearCache | resetStatistics => rfl

/-- All events of a history are answered by what they come to. -/
theorem Computed.responses_eq (h : engine.Computed asked)
    (hfaithful : Faithful engine.digest asked) (hconfig : engine.config.timeout = none)
    {history : List Event} (hasked : ∀ r, Asked history r → asked r) :
    engine.responses history = history.map (Event.outcome engine.generator engine.config) := by
  induction history generalizing engine with
  | nil => rfl
  | cons event history ih =>
    have hfirst : ∀ clock r, event = .request clock r → asked r := by
      rintro clock r rfl
      exact hasked r (asked_cons_self clock r history)
    have hrest : ∀ r, Asked history r → asked r := fun r hr => hasked r (hr.cons event)
    obtain ⟨hdigest', hgenerator', hconfig'⟩ := engine.settings_perform event
    rw [responses, List.map_cons, (h.keeps hconfig).respond_eq hfaithful hconfig hfirst,
      ih (h.perform hfirst) (hdigest' ▸ hfaithful) (hconfig' ▸ hconfig) hrest, hgenerator',
      hconfig']

/-- Without a time limit, an engine gives all its answers as if it had not answered anything
before, and a fresh engine gives the same answer whatever the clock shows, if digests are equal for
equal inputs only. -/
theorem responses_eq_fresh (digest : Subject → δ) (generator : Generator γ) (config : EngineConfig)
    (hconfig : config.timeout = none) (history : List Event)
    (hfaithful : Faithful digest (Asked history)) :
    (start digest generator config).responses history =
        history.map (fun event => (start digest generator config).respond event) ∧
      ∀ clock clock' r, ((start digest generator config).request clock r).1 =
        ((start digest generator config).request clock' r).1 := by
  have hfresh (clock : Clock) (r : Request) :
      ((start digest generator config).request clock r).1 = r.outcome generator config := by
    have hone : Faithful digest (· = r) := by
      constructor
      · rintro _ _ A B rfl rfl hA hB -
        exact Option.some.inj (hA.symm.trans hB)
      · rintro _ _ _ _ rfl hs -
        exact ⟨(Request.compile.inj hs).1.symm, (Request.compile.inj hs).2.symm⟩
    have hkeeps : (start digest generator config).Keeps (· = r) :=
      (computed_start digest generator config).keeps hconfig
    exact hkeeps.request_fst hone hconfig clock rfl
  constructor
  · rw [(computed_start digest generator config).responses_eq hfaithful hconfig fun _ => id]
    refine List.map_congr_left fun event _ => ?_
    cases event with
    | request clock r => rw [respond, hfresh]; rfl
    | clearCache | resetStatistics => rfl
  · intro clock clock' r
    rw [hfresh, hfresh]

/-- An engine with room for one result gives the complement of the automaton of a single word again
after it made room for another result. -/
theorem responses_single_word :
    let D : DFA :=
      ⟨.ofList ["p", "q"], .ofText "ab", .ofTriples [("p", 'a', "q")], "p", .ofList ["q"]⟩
    let config : EngineConfig := { EngineConfig.standard with cacheCapacity := 1 }
    let history : List Event := [.request (fun _ => .zero) (.complement D),
      .request (fun _ => .zero) (.toNFA D), .request (fun _ => .zero) (.complement D), .clearCache,
      .resetStatistics, .request (fun _ => .zero) (.compile "a*" D.alphabet)]
    config.timeout = none ∧ Faithful id (Asked history) ∧
      (new config).responses history =
        history.map fun event => (new config).respond event := by
  intro D config history
  have hasked (r : Request) (h : Asked history r) :
      r.source? = some (.dfa D) ∨ r = .compile "a*" D.alphabet := by
    obtain ⟨clock, hmem⟩ := h
    simp only [history, List.mem_cons, Event.request.injEq, reduceCtorEq, List.not_mem_nil,
      or_false, false_or] at hmem
    rcases hmem with ⟨-, rfl⟩ | ⟨-, rfl⟩ | ⟨-, rfl⟩ | ⟨-, rfl⟩
    · exact .inl rfl
    · exact .inl rfl
    · exact .inl rfl
    · exact .inr rfl
  have hfaithful : Faithful id (Asked history) := by
    constructor
    · intro r s A B hr hs hA hB _
      have hsource {t : Request} {C : AnyAutomaton} (ht : Asked history t)
          (hC : t.source? = some C) : C = .dfa D := by
        rcases hasked t ht with hD | rfl
        · exact Option.some.inj (hC.symm.trans hD)
        · contradiction
      rw [hsource hr hA, hsource hs hB]
    · intro text alphabet text' alphabet' _ _ hsame
      exact ⟨(Subject.pattern.inj hsame).1, (Subject.pattern.inj hsame).2⟩
  exact ⟨rfl, hfaithful, (responses_eq_fresh id Wyrand.generator config rfl history hfaithful).1⟩

end Engine

end RegularLanguages
