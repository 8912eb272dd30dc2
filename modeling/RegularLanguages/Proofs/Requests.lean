import RegularLanguages.Proofs.Budgets
import RegularLanguages.Proofs.Complements
import RegularLanguages.Proofs.Expressions
import RegularLanguages.Proofs.Probes

/-!
# Answers to requests

Every request asks for an automaton of some kind with some language. What is computed for it within
a budget has this language, so the check on probe words cannot fail.
-/

namespace RegularLanguages

/-- An error that says that a conversion changed the language. -/
def RequestError.IsChange : RequestError → Prop
  | .conversion (.notEquivalent _ _) => True
  | .conversion (.timeout _ _ _) | .conversion (.memory _ _ _) | .pattern _ | .operation _ => False

/-- An error for a limit does not say that the language changed. -/
theorem RequestError.IsLimit.not_isChange {e : RequestError} (h : e.IsLimit) : ¬e.IsChange := by
  rcases e with _ | _ | (_ | _ | _)
  · exact id
  · exact id
  · exact id
  · exact id
  · exact h.elim

namespace Computation

variable {α β : Type} {c : Computation α} {post : α → Prop}

/-- All values of a computation have the property, and no error says that the language changed. -/
def Delivers (c : Computation α) (post : α → Prop) : Prop := c.Ensures (fun e => ¬e.IsChange) post

/-- A computation that yields a value delivers what holds of it. -/
theorem Yields.delivers {x : α} (h : c.Yields x) (hx : post x) : c.Delivers post :=
  Ensures.mono h (fun _ => RequestError.IsLimit.not_isChange) fun _ hy => hy ▸ hx

/-- A computation delivers what it delivers after a part with a known value. -/
theorem Yields.bind_delivers {x : α} {f : α → Computation β} {goal : β → Prop} (h : c.Yields x)
    (hf : (f x).Delivers goal) : (c >>= f).Delivers goal :=
  Ensures.bind (Ensures.mono h (fun _ => RequestError.IsLimit.not_isChange) fun _ => id)
    fun _ hx => hx ▸ hf

/-- A step outside the budget delivers its value, and its errors are not about conversions. -/
theorem delivers_ofExcept {ε : Type} (wrap : ε → RequestError) (hwrap : ∀ e, ¬(wrap e).IsChange)
    (result : Except ε α) :
    Delivers (Bounded.ofExcept (result.mapError wrap)) fun x => result = .ok x := by
  constructor
  intro budget
  have hrun : (Bounded.within budget (Bounded.ofExcept (result.mapError wrap))).1 =
      result.mapError wrap := rfl
  rw [hrun]
  cases result with
  | error e => exact hwrap e
  | ok x => rfl

/-- A target whose size is looked at is delivered as it is. -/
theorem delivers_allowed {toAny : α → AnyAutomaton} {target : α} (h : post target) :
    (allowed toAny target).Delivers post :=
  ((yields_allow (toAny target).size).bind (.pure target)).delivers h

section Checks

variable {γ : Type} {generator : Generator γ} {config : EngineConfig} {operation : Operation}
  {source target : AnyAutomaton} {toAny : α → AnyAutomaton} {negated : Bool}

/-- The check lets a target pass as it is, or says that the language changed. -/
theorem validate_cases (generator : Generator γ) (config : EngineConfig) (operation : Operation)
    (source target : AnyAutomaton) (negated : Bool) :
    validate generator config operation source target negated = Pure.pure () ∨
      ∃ w, validate generator config operation source target negated =
        throw (.conversion (.notEquivalent operation.name w)) := by
  unfold validate
  split
  · split
    · exact .inr ⟨_, rfl⟩
    · exact .inl rfl
  · exact .inl rfl

/-- The check succeeds if the target does what it should on all words over the alphabet. -/
theorem yields_validate
    (h : ∀ w : Word, (∀ a ∈ w, a ∈ source.alphabet) →
      (source.accepts w != target.accepts w) = negated) :
    (validate generator config operation source target negated).Yields () := by
  unfold validate
  split
  · rw [Probe.violation?_eq_none h]
    exact .pure ()
  · exact .pure ()

/-- A checked computation delivers what the computation without the check delivers, if this stands
the check. -/
theorem delivers_checked (hc : c.Delivers post)
    (hpost : ∀ x, post x → ∀ w : Word, (∀ a ∈ w, a ∈ source.alphabet) →
      (source.accepts w != (toAny x).accepts w) = negated) :
    (checked generator config operation source toAny negated c).Delivers post := by
  refine (yields_allow source.size).bind_delivers (Ensures.bind hc fun x hx => ?_)
  exact (yields_validate (hpost x hx)).bind_delivers (.pure hx)

end Checks

end Computation

/-- An automaton of the kind that accepts the same words as the source. -/
def AnyAutomaton.IsConversion (A : AnyAutomaton) (kind : Kind) (B : AnyAutomaton) : Prop :=
  B.kind = kind ∧ ∀ w, B.accepts w = A.accepts w

/-- A deterministic automaton that accepts the words over the alphabet of the source that the source
does not accept. -/
def AnyAutomaton.IsComplement (A B : AnyAutomaton) : Prop :=
  B.kind = .dfa ∧ ∀ w, B.accepts w = true ↔ (∀ a ∈ w, a ∈ A.alphabet) ∧ A.accepts w = false

/-- What a conversion has to make of a source. Compiling has no source. -/
def Operation.Makes : Operation → (A B : AnyAutomaton) → Prop
  | toNFA, A, B => A.IsConversion .nfa B
  | toDFA, A, B | toDFADirect, A, B | minimize, A, B => A.IsConversion .dfa B
  | trim, A, B => A.IsConversion A.kind B
  | convert kind, A, B => A.IsConversion kind B
  | complement, A, B => A.IsComplement B
  | compile, _, _ => False

namespace Request

/-- The automaton that is to be converted is well-formed, if there is one. -/
def WellFormed (r : Request) : Prop := ∀ A, r.source? = some A → A.WellFormed

/-- The automata that answer a request. -/
def IsAnswer (r : Request) (B : AnyAutomaton) : Prop :=
  match r with
  | toNFA A | toDFA A | toDFADirect A | minimize A | trim A | complement A | convert A _ =>
    r.operation.Makes A B
  | compile pattern alphabet =>
    B.kind = .epsilonNFA ∧ ∃ x, Pattern.parse (.ofAlphabet alphabet) pattern = .ok x ∧
      ∀ w, B.accepts w = true ↔ w ∈ x.language

end Request

namespace Computation

variable {γ : Type} {generator : Generator γ} {config : EngineConfig} {operation : Operation}
  {A : AnyAutomaton} {α : Type} {c : Computation α}

/-- A conversion stands its check. -/
theorem delivers_conversion {kind : Kind} (toAny : α → AnyAutomaton)
    (hc : c.Delivers fun x => A.IsConversion kind (toAny x)) :
    (checked generator config operation A toAny false c).Delivers fun x =>
      A.IsConversion kind (toAny x) :=
  delivers_checked hc fun x hx w _ => by rw [hx.2 w, bne_self_eq_false]

/-- A complement stands its check. -/
theorem delivers_complement (toAny : α → AnyAutomaton)
    (hc : c.Delivers fun x => A.IsComplement (toAny x)) :
    (checked generator config operation A toAny true c).Delivers fun x =>
      A.IsComplement (toAny x) := by
  refine delivers_checked hc fun x hx w hw => ?_
  have haccepts := hx.2 w
  cases hA : A.accepts w with
  | true =>
    have hB : (toAny x).accepts w = false := by simpa [hA] using haccepts
    rw [hB]
    rfl
  | false =>
    rw [haccepts.mpr ⟨hw, hA⟩]
    rfl

/-- A deterministic automaton for a well-formed source is well-formed and accepts the same words. -/
theorem delivers_determinize (hA : A.WellFormed) :
    (determinize A).Delivers fun D => D.WellFormed ∧ ∀ w, D.accepts w = A.accepts w := by
  unfold determinize
  cases hread : A.asDeterministic? with
  | some D =>
    obtain ⟨hD, -, haccepts⟩ := AnyAutomaton.asDeterministic?_spec hA hread
    exact .pure ⟨hD, haccepts⟩
  | none =>
    obtain ⟨hN, hsame⟩ := AnyAutomaton.toNFA_spec hA
    obtain ⟨hD, haccepts⟩ := NFA.determinize_spec hN
    exact A.toNFA.yields_determinizeWith.delivers
      ⟨hD, fun w => (haccepts w).trans (hsame w)⟩

end Computation

namespace Request

open RegularLanguages.Computation

/-- What is computed for a request with a well-formed source answers it. -/
theorem delivers_compute {γ : Type} (generator : Generator γ) (config : EngineConfig) (r : Request)
    (hr : r.WellFormed) :
    (r.compute generator config).Delivers fun result => r.IsAnswer (r.resultType.toAny result) := by
  cases r with
  | toNFA A =>
    obtain ⟨-, haccepts⟩ := AnyAutomaton.toNFA_spec (hr A rfl)
    exact delivers_conversion .nfa (delivers_allowed ⟨rfl, haccepts⟩)
  | toDFA A =>
    exact delivers_conversion .dfa ((delivers_determinize (hr A rfl)).mono (fun _ => id)
      fun D hD => ⟨rfl, hD.2⟩)
  | toDFADirect A =>
    obtain ⟨hE, hsame⟩ := AnyAutomaton.toEpsilonNFA_spec (hr A rfl)
    obtain ⟨-, haccepts⟩ := EpsilonNFA.determinize_spec hE
    exact delivers_conversion .dfa (A.toEpsilonNFA.yields_determinizeWith.delivers
      ⟨rfl, fun w => (haccepts w).trans (hsame w)⟩)
  | minimize A =>
    refine delivers_conversion .dfa (Ensures.bind (delivers_determinize (hr A rfl)) fun D hD => ?_)
    exact D.yields_minimizeWith.delivers
      ⟨rfl, fun w => (DFA.accepts_minimize hD.1 w).trans (hD.2 w)⟩
  | trim A =>
    have htrimmed : A.IsConversion A.kind A.trimmed :=
      ⟨A.kind_trimmed, AnyAutomaton.accepts_trimmed (hr A rfl)⟩
    cases A with
    | dfa D => exact delivers_conversion .dfa (.pure htrimmed)
    | nfa N => exact delivers_conversion .nfa (.pure htrimmed)
    | epsilonNFA E => exact delivers_conversion .epsilonNFA (.pure htrimmed)
  | complement A =>
    have hread := delivers_ofExcept .operation (fun _ => id) (RegularLanguages.complement A)
    exact delivers_complement .dfa (hread.bind fun D hD =>
      delivers_allowed ⟨rfl, AnyAutomaton.accepts_complement_iff (hr A rfl) hD⟩)
  | convert A kind =>
    cases kind with
    | dfa =>
      refine delivers_conversion id (Ensures.bind (delivers_determinize (hr A rfl)) fun D hD => ?_)
      exact delivers_allowed ⟨rfl, hD.2⟩
    | nfa =>
      obtain ⟨-, haccepts⟩ := AnyAutomaton.toNFA_spec (hr A rfl)
      exact delivers_conversion id (delivers_allowed ⟨rfl, haccepts⟩)
    | epsilonNFA =>
      obtain ⟨-, haccepts⟩ := AnyAutomaton.toEpsilonNFA_spec (hr A rfl)
      exact delivers_conversion id (delivers_allowed ⟨rfl, haccepts⟩)
  | compile pattern alphabet =>
    have hmade := delivers_ofExcept .pattern (fun _ => id) (Pattern.compile pattern alphabet)
    exact hmade.bind fun E hE =>
      delivers_allowed ⟨rfl, Pattern.exists_parse_of_compile hE⟩

end Request

end RegularLanguages
