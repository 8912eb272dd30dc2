import RegularLanguages.Proofs.Caching
import RegularLanguages.Proofs.SoundOperations
import RegularLanguages.Proofs.SoundSources

/-!
# Answers to requests are sound

Whatever is computed for a sound automaton is sound, within every budget. An engine that was asked
about sound automata only remembers sound automata, so what it answers from memory is sound too,
even if digests do not tell requests apart. Sound automata have the same shape only if they are
equal: a digest that tells all subjects apart tells them apart.
-/

namespace RegularLanguages

/-- Sound automata of one shape are equal. -/
theorem AnyAutomaton.Sound.eq_of_shape_eq {A B : AnyAutomaton} (hA : A.Sound) (hB : B.Sound)
    (h : A.shape = B.shape) : A = B := by
  obtain ⟨hkind, hstates, halphabet, hedges, hinitial, hfinals⟩ := Shape.mk.inj h
  exact hA.eq_of_parts_eq hB hkind hstates halphabet (fun e => by rw [hedges]) hinitial hfinals

namespace Computation

variable {α : Type} {c : Computation α} {x : α} {post : α → Prop}

/-- All values of the computation have the property. -/
def Brings (c : Computation α) (post : α → Prop) : Prop := c.Ensures (fun _ => True) post

/-- What a computation delivers, it brings. -/
theorem Delivers.brings (h : c.Delivers post) : c.Brings post :=
  Ensures.mono h (fun _ _ => True.intro) fun _ => id

/-- A computation that yields a value brings what holds of it. -/
theorem Yields.brings (h : c.Yields x) (hx : post x) : c.Brings post := (h.delivers hx).brings

/-- A target whose size is looked at is brought as it is. -/
theorem brings_allowed {toAny : α → AnyAutomaton} {target : α} (h : post target) :
    (allowed toAny target).Brings post := (delivers_allowed h).brings

/-- The check lets values through as they are. -/
theorem brings_checked {γ : Type} {generator : Generator γ} {config : EngineConfig}
    {operation : Operation} {source : AnyAutomaton} {toAny : α → AnyAutomaton} {negated : Bool}
    (hc : c.Brings post) :
    (checked generator config operation source toAny negated c).Brings post := by
  have hvalidate (target : AnyAutomaton) :
      (validate generator config operation source target negated).Brings fun _ => True := by
    rcases validate_cases generator config operation source target negated with hpass | ⟨w, hfail⟩
    · rw [hpass]
      exact .pure trivial
    · rw [hfail]
      exact .throw trivial
  have hallow : (meter.allow source.size).Brings fun _ => True :=
    (yields_allow source.size).brings trivial
  exact Ensures.bind hallow fun _ _ => Ensures.bind hc fun _ hx =>
    Ensures.bind (hvalidate _) fun _ _ => .pure hx

/-- A deterministic automaton for a sound source is sound. -/
theorem brings_determinize {A : AnyAutomaton} (hA : A.Sound) :
    (determinize A).Brings Automaton.Sound := by
  unfold determinize
  cases hread : A.asDeterministic? with
  | some D => exact .pure (AnyAutomaton.sound_of_asDeterministic? hA hread)
  | none =>
    exact A.toNFA.yields_determinizeWith.brings
      (NFA.sound_determinize (AnyAutomaton.sound_toNFA hA))

end Computation

namespace Request

open RegularLanguages.Computation

/-- The automaton that is to be converted is sound, if there is one. -/
def Sound (r : Request) : Prop := ∀ A, r.source? = some A → A.Sound

/-- What is computed for a request with a sound source is sound. -/
theorem brings_compute {γ : Type} (generator : Generator γ) (config : EngineConfig) {r : Request}
    (hr : r.Sound) :
    (r.compute generator config).Brings fun result => (r.resultType.toAny result).Sound := by
  cases r with
  | toNFA A => exact brings_checked (brings_allowed (AnyAutomaton.sound_toNFA (hr A rfl)))
  | toDFA A => exact brings_checked (brings_determinize (hr A rfl))
  | toDFADirect A =>
    have hE := AnyAutomaton.sound_toEpsilonNFA (hr A rfl)
    exact brings_checked (A.toEpsilonNFA.yields_determinizeWith.brings
      (EpsilonNFA.sound_determinize hE))
  | minimize A =>
    exact brings_checked (Ensures.bind (brings_determinize (hr A rfl)) fun D hD =>
      D.yields_minimizeWith.brings (DFA.sound_minimize hD))
  | trim A =>
    have htrimmed := AnyAutomaton.sound_trimmed (hr A rfl)
    cases A <;> exact brings_checked (.pure htrimmed)
  | complement A =>
    have hread := delivers_ofExcept .operation (fun _ => id) (RegularLanguages.complement A)
    exact brings_checked (Ensures.bind hread.brings fun D hD =>
      brings_allowed (sound_of_complement (hr A rfl) hD))
  | convert A kind =>
    cases kind with
    | dfa =>
      exact brings_checked (Ensures.bind (brings_determinize (hr A rfl)) fun D hD =>
        brings_allowed hD)
    | nfa => exact brings_checked (brings_allowed (AnyAutomaton.sound_toNFA (hr A rfl)))
    | epsilonNFA =>
      exact brings_checked (brings_allowed (AnyAutomaton.sound_toEpsilonNFA (hr A rfl)))
  | compile pattern alphabet =>
    have hmade := delivers_ofExcept .pattern (fun _ => id) (Pattern.compile pattern alphabet)
    exact Ensures.bind hmade.brings fun E hE => brings_allowed (Pattern.sound_of_compile hE)

/-- What is computed for a request with a sound source is sound. -/
theorem ComesTo.sound {γ : Type} {generator : Generator γ} {config : EngineConfig} {r : Request}
    {result : r.Result} (h : r.ComesTo generator config result) (hr : r.Sound) :
    (r.resultType.toAny result).Sound := by
  obtain ⟨clock, rest, hrun⟩ := h
  have hbrings := (brings_compute generator config hr).result
    (.start r.operation.name (some config.maxStates) config.timeout clock)
  rwa [hrun] at hbrings

end Request

namespace Engine

variable {δ γ : Type} {engine : Engine δ γ} {asked : Request → Prop}

/-- Every remembered automaton is sound. -/
def RemembersSound (engine : Engine δ γ) : Prop :=
  ∀ entry ∈ engine.cache.entries, (entry.2.1.toAny entry.2.2).Sound

/-- An engine that is asked about sound automata only remembers sound automata only. -/
theorem Computed.remembersSound (h : engine.Computed asked) (hasked : ∀ r, asked r → r.Sound) :
    engine.RemembersSound := by
  intro entry hentry
  obtain ⟨r, result, hr, hresult, rfl⟩ := h entry hentry
  exact hresult.sound (hasked r hr)

/-- Digests that tell all subjects apart are equal for equal inputs only, if these are sound. -/
theorem faithful_of_injective {digest : Subject → δ} (hdigest : Function.Injective digest)
    (hasked : ∀ r, asked r → r.Sound) : Faithful digest asked where
  source_eq r s A B hr hs hA hB h :=
    AnyAutomaton.Sound.eq_of_shape_eq (hasked r hr A hA) (hasked s hs B hB)
      (Subject.source.inj (hdigest h))
  pattern_eq _ _ _ _ _ _ h :=
    ⟨(Subject.pattern.inj (hdigest h)).1, (Subject.pattern.inj (hdigest h)).2⟩

variable [DecidableEq δ]

/-- An engine that remembers sound automata only answers a request about a sound automaton by a
sound automaton. -/
theorem RemembersSound.answer (h : engine.RemembersSound) {clock : Clock} {r : Request}
    (hr : r.Sound) {result : r.Result} (hanswer : (engine.request clock r).1 = .ok result) :
    (r.resultType.toAny result).Sound := by
  rcases found_or_computed_of_answer hanswer with hget | ⟨rest, hrun⟩
  · exact h _ (Cache.mem_of_get? hget)
  · exact Request.ComesTo.sound ⟨clock, rest, hrun⟩ hr

end Engine

end RegularLanguages
