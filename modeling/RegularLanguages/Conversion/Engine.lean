import RegularLanguages.Operations.Regular
import RegularLanguages.Pattern.Compiled
import RegularLanguages.Automaton.Minimal
import RegularLanguages.Conversion.Budget
import RegularLanguages.Conversion.Cache
import RegularLanguages.Conversion.Probe
import RegularLanguages.Conversion.Statistics

/-!
# The conversion engine

An engine answers requests for conversions. Each has a budget of states and time, its result is
checked on probe words, and results are kept for requests that ask for the same again. Requests ask
for the same if their digests say so: an engine does not keep its sources. Both the digest and the
generator of random probe words are given to the engine when it is started. What an engine remembers
and counts is the value `Engine`; a request takes it to the next one.
-/

namespace RegularLanguages

/-- The types of results. -/
inductive ResultType where
  | dfa
  | nfa
  | epsilonNFA
  | any
deriving DecidableEq, Repr

namespace ResultType

/-- The results of a type. -/
def Value : ResultType → Type
  | dfa => DFA
  | nfa => NFA
  | epsilonNFA => EpsilonNFA
  | any => AnyAutomaton

/-- A result as an automaton of any kind. -/
def toAny : (t : ResultType) → t.Value → AnyAutomaton
  | dfa, D => .dfa D
  | nfa, N => .nfa N
  | epsilonNFA, E => .epsilonNFA E
  | any, A => A

/-- The type of automata of a kind. -/
def ofKind : Kind → ResultType
  | .dfa => dfa
  | .nfa => nfa
  | .epsilonNFA => epsilonNFA

end ResultType

/-- All that an automaton is made of. -/
structure Shape where
  kind : Kind
  states : StateSet
  alphabet : Alphabet
  edges : List Edge
  initial : State
  finals : StateSet
deriving DecidableEq

/-- All that the automaton is made of. -/
def AnyAutomaton.shape (A : AnyAutomaton) : Shape :=
  ⟨A.kind, A.states, A.alphabet, A.edges, A.initial, A.finals⟩

/-- What a request is about. -/
inductive Subject where
  | nothing
  | source (shape : Shape)
  | pattern (text : String) (alphabet : Alphabet)
deriving DecidableEq

/-- A request for a conversion. -/
inductive Request where
  | toNFA (source : AnyAutomaton)
  | toDFA (source : AnyAutomaton)
  | toDFADirect (source : AnyAutomaton)
  | minimize (source : AnyAutomaton)
  | trim (source : AnyAutomaton)
  | complement (source : AnyAutomaton)
  | convert (source : AnyAutomaton) (kind : Kind)
  | compile (pattern : String) (alphabet : Alphabet)
deriving DecidableEq

namespace Request

/-- The conversion that is asked for. -/
def operation : Request → Operation
  | toNFA _ => .toNFA
  | toDFA _ => .toDFA
  | toDFADirect _ => .toDFADirect
  | minimize _ => .minimize
  | trim _ => .trim
  | complement _ => .complement
  | convert _ kind => .convert kind
  | compile _ _ => .compile

/-- The automaton that is to be converted. -/
def source? : Request → Option AnyAutomaton
  | toNFA A | toDFA A | toDFADirect A | minimize A | trim A | complement A | convert A _ => some A
  | compile _ _ => none

/-- The type of the result. -/
def resultType : Request → ResultType
  | toNFA _ => .nfa
  | toDFA _ | toDFADirect _ | minimize _ | complement _ => .dfa
  | trim A => .ofKind A.kind
  | convert _ _ => .any
  | compile _ _ => .epsilonNFA

/-- The results of a request. -/
abbrev Result (r : Request) : Type := r.resultType.Value

/-- What the result depends on besides the conversion. -/
def subject : Request → Subject
  | toNFA A | toDFA A | toDFADirect A | minimize A | trim A | complement A | convert A _ =>
    .source A.shape
  | compile pattern alphabet => .pattern pattern alphabet

/-- The key under which the result is kept, made with a digest of subjects. -/
def key {δ : Type} (digest : Subject → δ) (r : Request) : CacheKey δ :=
  match r with
  | toNFA A | toDFA A | toDFADirect A | minimize A | trim A | complement A | convert A _ =>
    ⟨r.operation, some A.kind, digest r.subject, none⟩
  | compile _ _ => ⟨r.operation, none, digest .nothing, some (digest r.subject)⟩

end Request

/-- Computations of an engine. -/
abbrev Computation := Bounded RequestError

namespace Computation

/-- The meter that charges the budget of the request. -/
def meter : Meter Computation := Bounded.meter .conversion

/-- The automaton itself if it is deterministic, and else the one of the subset construction. -/
def determinize (source : AnyAutomaton) : Computation DFA :=
  match source.asDeterministic? with
  | some D => pure D
  | none => source.toNFA.determinizeWith meter

section Checks

variable {γ : Type} (generator : Generator γ) (config : EngineConfig)

/-- Fails if the target does not do on the probe words what it should. -/
def validate (operation : Operation) (source target : AnyAutomaton) (negated : Bool) :
    Computation Unit :=
  if config.validate then
    match Probe.violation? generator config source target negated with
    | some w => throw (.conversion (.notEquivalent operation.name w))
    | none => pure ()
  else pure ()

/-- Checks the size of the source, computes the target and checks it. -/
def checked {α : Type} (operation : Operation) (source : AnyAutomaton) (toAny : α → AnyAutomaton)
    (negated : Bool) (compute : Computation α) : Computation α := do
  meter.allow source.size
  let target ← compute
  validate generator config operation source (toAny target) negated
  return target

end Checks

/-- A target whose size is allowed. -/
def allowed {α : Type} (toAny : α → AnyAutomaton) (target : α) : Computation α := do
  meter.allow (toAny target).size
  return target

end Computation

namespace Request

/-- Computes the result of a request. -/
def compute {γ : Type} (generator : Generator γ) (config : EngineConfig) :
    (r : Request) → Computation r.Result
  | toNFA A => Computation.checked generator config .toNFA A .nfa false
      (Computation.allowed .nfa A.toNFA)
  | toDFA A => Computation.checked generator config .toDFA A .dfa false
      (Computation.determinize A)
  | toDFADirect A => Computation.checked generator config .toDFADirect A .dfa false
      (A.toEpsilonNFA.determinizeWith Computation.meter)
  | minimize A => Computation.checked generator config .minimize A .dfa false do
      let D ← Computation.determinize A
      D.minimizeWith Computation.meter
  | trim (.dfa D) =>
      Computation.checked generator config .trim (.dfa D) .dfa false (pure D.trimmed)
  | trim (.nfa N) =>
      Computation.checked generator config .trim (.nfa N) .nfa false (pure N.trimmed)
  | trim (.epsilonNFA E) =>
      Computation.checked generator config .trim (.epsilonNFA E) .epsilonNFA false (pure E.trimmed)
  | complement A => Computation.checked generator config .complement A .dfa true do
      let D ← Bounded.ofExcept ((RegularLanguages.complement A).mapError .operation)
      Computation.allowed .dfa D
  | convert A .dfa => Computation.checked generator config (.convert .dfa) A id false do
      let D ← Computation.determinize A
      Computation.allowed id (.dfa D)
  | convert A .nfa => Computation.checked generator config (.convert .nfa) A id false
      (Computation.allowed id (.nfa A.toNFA))
  | convert A .epsilonNFA => Computation.checked generator config (.convert .epsilonNFA) A id false
      (Computation.allowed id (.epsilonNFA A.toEpsilonNFA))
  | compile pattern alphabet => do
      let E ← Bounded.ofExcept ((Pattern.compile pattern alphabet).mapError .pattern)
      Computation.allowed .epsilonNFA E

end Request

/-- What an engine remembers and counts. It knows the subjects of earlier requests by their digests
only, and draws probe words with its generator. -/
structure Engine (δ : Type := Subject) (γ : Type := Wyrand) where
  digest : Subject → δ
  generator : Generator γ
  config : EngineConfig
  cache : Cache (CacheKey δ) ResultType.Value
  statistics : Statistics

namespace Engine

variable {δ γ : Type}

/-- An engine with some digest and some generator that has answered nothing yet. -/
def start (digest : Subject → δ) (generator : Generator γ) (config : EngineConfig) : Engine δ γ :=
  ⟨digest, generator, config, .empty config.cacheCapacity, .zero⟩

/-- An engine that tells all subjects apart and has answered nothing yet. -/
def new (config : EngineConfig) : Engine := start id Wyrand.generator config

/-- The engine without remembered results. -/
def clearCache (engine : Engine δ γ) : Engine δ γ := { engine with cache := engine.cache.clear }

/-- The engine with its counters at zero. -/
def resetStatistics (engine : Engine δ γ) : Engine δ γ := { engine with statistics := .zero }

/-- The counters after an answer from the cache. -/
def countHit (s : Statistics) : Statistics := { s with cacheHits := s.cacheHits + 1 }

/-- The counters after a computation that took some time. -/
def countMiss (s : Statistics) (elapsed : Duration) : Statistics :=
  { s with
    conversions := s.conversions + 1
    cacheMisses := s.cacheMisses + 1
    totalTime := s.totalTime.add elapsed }

/-- The counters after a failure. -/
def countFailure (s : Statistics) : RequestError → Statistics
  | .conversion (.timeout _ _ _) => { s with timeouts := s.timeouts + 1 }
  | .conversion (.memory _ _ _) => { s with memoryRejections := s.memoryRejections + 1 }
  | .conversion (.notEquivalent _ _) | .pattern _ | .operation _ => s

/-- The budget of a request. -/
def budget (engine : Engine δ γ) (clock : Clock) (r : Request) : Budget :=
  .start r.operation.name (some engine.config.maxStates) engine.config.timeout clock

/-- Answers a request. The clock says how much time passes if the result has to be computed. -/
def request [DecidableEq δ] (engine : Engine δ γ) (clock : Clock) (r : Request) :
    Except RequestError r.Result × Engine δ γ :=
  let key := r.key engine.digest
  match engine.cache.get? r.resultType key with
  | some result => (.ok result, { engine with statistics := countHit engine.statistics })
  | none =>
    let (answer, rest) :=
      Bounded.within (engine.budget clock r) (r.compute engine.generator engine.config)
    let statistics := countMiss engine.statistics rest.elapsed
    match answer with
    | .ok result =>
      let evicted := engine.cache.evictions key
      (.ok result,
        { engine with
          cache := engine.cache.insert key r.resultType result
          statistics := { statistics with evictions := statistics.evictions + evicted } })
    | .error e => (.error e, { engine with statistics := countFailure statistics e })

/-- The first probe word on which two automata disagree. -/
def separate? (engine : Engine δ γ) (a b : AnyAutomaton) : Option Word :=
  Probe.separate? engine.generator engine.config a b

end Engine

end RegularLanguages
