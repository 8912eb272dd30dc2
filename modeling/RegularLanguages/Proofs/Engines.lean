import RegularLanguages.Proofs.Caches
import RegularLanguages.Proofs.Requests

/-!
# Histories of an engine

An engine goes from one state to the next by requests and by forgetting what it has computed or
counted. Every remembered result was computed for an earlier request and answers it. A later request
finds the result under the same key. If digests tell the subjects of the two requests apart, then
they ask for the same, because a subject is all that an automaton is made of.
-/

namespace RegularLanguages

/-- The parts of two automata are the same if their transitions are listed alike. -/
theorem Automaton.SameParts.of_edges_eq {T U : Type} [TransitionTable T] [TransitionTable U]
    {A : Automaton T} {B : Automaton U} (hstates : A.states = B.states)
    (halphabet : A.alphabet = B.alphabet) (hedges : A.edges = B.edges)
    (hinitial : A.initial = B.initial) (hfinals : A.finals = B.finals) : SameParts A B :=
  ⟨hstates, halphabet, fun p l q => by rw [Moves, Moves, hedges], hinitial, hfinals⟩

/-- Two automata of one kind have the same parts. -/
inductive AnyAutomaton.Alike : (A B : AnyAutomaton) → Prop
  | dfa {A B : DFA} (h : Automaton.SameParts A B) : Alike (.dfa A) (.dfa B)
  | nfa {A B : NFA} (h : Automaton.SameParts A B) : Alike (.nfa A) (.nfa B)
  | epsilonNFA {A B : EpsilonNFA} (h : Automaton.SameParts A B) :
    Alike (.epsilonNFA A) (.epsilonNFA B)

/-- Two automata of one shape have the same parts. -/
theorem AnyAutomaton.alike_of_shape_eq {A B : AnyAutomaton} (h : A.shape = B.shape) :
    A.Alike B := by
  obtain ⟨hkind, hstates, halphabet, hedges, hinitial, hfinals⟩ := Shape.mk.inj h
  cases A with
  | dfa D =>
    cases B with
    | dfa D' => exact .dfa (.of_edges_eq hstates halphabet hedges hinitial hfinals)
    | nfa | epsilonNFA => contradiction
  | nfa N =>
    cases B with
    | nfa N' => exact .nfa (.of_edges_eq hstates halphabet hedges hinitial hfinals)
    | dfa | epsilonNFA => contradiction
  | epsilonNFA E =>
    cases B with
    | epsilonNFA E' => exact .epsilonNFA (.of_edges_eq hstates halphabet hedges hinitial hfinals)
    | dfa | nfa => contradiction

/-- Two automata of one shape are well-formed together and accept the same words over the same
alphabet. -/
theorem AnyAutomaton.of_shape_eq {A B : AnyAutomaton} (h : A.shape = B.shape) :
    A.kind = B.kind ∧ A.alphabet = B.alphabet ∧ (A.WellFormed → B.WellFormed) ∧
      ∀ w, A.accepts w = B.accepts w := by
  cases alike_of_shape_eq h with
  | dfa hparts | nfa hparts | epsilonNFA hparts =>
    exact ⟨rfl, hparts.alphabet_eq, hparts.wellFormed,
      accepts_eq_of_recognizes_iff hparts.recognizes_iff⟩

/-- Conversions make the same of automata of one shape. -/
theorem Operation.Makes.of_shape_eq {operation : Operation} {A A' B : AnyAutomaton}
    (h : operation.Makes A B) (hshape : A.shape = A'.shape) : operation.Makes A' B := by
  obtain ⟨hkind, halphabet, -, haccepts⟩ := AnyAutomaton.of_shape_eq hshape
  have hconversion {kind : Kind} (h : A.IsConversion kind B) : A'.IsConversion kind B :=
    ⟨h.1, fun w => (h.2 w).trans (haccepts w)⟩
  cases operation with
  | toNFA | toDFA | toDFADirect | minimize | convert => exact hconversion h
  | trim => exact hconversion (hkind ▸ h)
  | complement => exact ⟨h.1, fun w => by rw [h.2 w, halphabet, haccepts w]⟩
  | compile => exact h

namespace Request

variable {δ : Type} {digest : Subject → δ} {r s : Request}

/-- A request with a source is about all that the source is made of. -/
theorem subject_of_source? {A : AnyAutomaton} (h : r.source? = some A) :
    r.subject = .source A.shape := by
  cases r <;> cases h <;> rfl

/-- A request with a source is kept under its conversion, the kind of the source and a digest. -/
theorem key_of_source? {A : AnyAutomaton} (h : r.source? = some A) :
    r.key digest = ⟨r.operation, some A.kind, digest r.subject, none⟩ := by
  cases r <;> cases h <;> rfl

/-- A request with a source is answered by what its conversion has to make of the source. -/
theorem isAnswer_iff_of_source? {A B : AnyAutomaton} (h : r.source? = some A) :
    r.IsAnswer B ↔ r.operation.Makes A B := by
  cases r <;> cases h <;> rfl

/-- A request without a source is a compilation. -/
theorem exists_compile_of_source? (h : r.source? = none) :
    ∃ pattern alphabet, r = compile pattern alphabet := by
  cases r with
  | compile pattern alphabet => exact ⟨pattern, alphabet, rfl⟩
  | _ => contradiction

/-- A request with a source is a conversion of this source. -/
theorem eq_of_source? {r s : Request} {A : AnyAutomaton} (h : r.operation = s.operation)
    (hr : r.source? = some A) (hs : s.source? = some A) : r = s := by
  cases r <;> cases s <;> simp_all [operation, source?]

/-- Two requests with one key ask for the same conversion of subjects with one digest. -/
theorem of_key_eq (h : r.key digest = s.key digest) :
    r.operation = s.operation ∧ digest r.subject = digest s.subject := by
  cases hr : r.source? with
  | some A =>
    cases hs : s.source? with
    | some B =>
      rw [key_of_source? hr, key_of_source? hs] at h
      obtain ⟨hoperation, -, hdigest, -⟩ := CacheKey.mk.inj h
      exact ⟨hoperation, hdigest⟩
    | none =>
      obtain ⟨pattern, alphabet, rfl⟩ := exists_compile_of_source? hs
      rw [key_of_source? hr] at h
      cases congrArg CacheKey.sourceKind h
  | none =>
    obtain ⟨pattern, alphabet, rfl⟩ := exists_compile_of_source? hr
    cases hs : s.source? with
    | some B =>
      rw [key_of_source? hs] at h
      cases congrArg CacheKey.sourceKind h
    | none =>
      obtain ⟨pattern', alphabet', rfl⟩ := exists_compile_of_source? hs
      exact ⟨rfl, Option.some.inj (congrArg CacheKey.parameters h)⟩

/-- Two requests with one subject are the same compilation, or they are about automata of one
shape. -/
theorem of_subject_eq (h : r.subject = s.subject) :
    r = s ∨ ∃ A B, r.source? = some A ∧ s.source? = some B ∧ A.shape = B.shape := by
  cases hr : r.source? with
  | some A =>
    cases hs : s.source? with
    | some B =>
      rw [subject_of_source? hr, subject_of_source? hs] at h
      exact .inr ⟨A, B, rfl, rfl, Subject.source.inj h⟩
    | none =>
      obtain ⟨pattern, alphabet, rfl⟩ := exists_compile_of_source? hs
      rw [subject_of_source? hr] at h
      cases h
  | none =>
    obtain ⟨pattern, alphabet, rfl⟩ := exists_compile_of_source? hr
    cases hs : s.source? with
    | some B =>
      rw [subject_of_source? hs] at h
      cases h
    | none =>
      obtain ⟨pattern', alphabet', rfl⟩ := exists_compile_of_source? hs
      obtain ⟨rfl, rfl⟩ := Subject.pattern.inj h
      exact .inl rfl

/-- An answer to a request answers all requests for the same conversion of its subject. -/
theorem IsAnswer.of_subject_eq {B : AnyAutomaton} (h : r.IsAnswer B)
    (hoperation : r.operation = s.operation) (hsubject : r.subject = s.subject) :
    s.IsAnswer B := by
  rcases Request.of_subject_eq hsubject with rfl | ⟨A, A', hr, hs, hshape⟩
  · exact h
  · rw [isAnswer_iff_of_source? hr, hoperation] at h
    exact (isAnswer_iff_of_source? hs).mpr (h.of_shape_eq hshape)

/-- Requests with one subject have well-formed sources together. -/
theorem WellFormed.of_subject_eq (h : r.WellFormed) (hsubject : r.subject = s.subject) :
    s.WellFormed := by
  rcases Request.of_subject_eq hsubject with rfl | ⟨A, A', hr, hs, hshape⟩
  · exact h
  · intro B hB
    obtain rfl := Option.some.inj (hs.symm.trans hB)
    obtain ⟨-, -, hwellFormed, -⟩ := AnyAutomaton.of_shape_eq hshape
    exact hwellFormed (h A hr)

/-- The result is computed for the request by an engine with this generator and this configuration
at some times. -/
def ComesTo {γ : Type} (generator : Generator γ) (config : EngineConfig) (r : Request)
    (result : r.Result) : Prop :=
  ∃ clock rest, Bounded.within
    (.start r.operation.name (some config.maxStates) config.timeout clock)
    (r.compute generator config) = (.ok result, rest)

/-- What is computed for a request with a well-formed source answers it. -/
theorem ComesTo.isAnswer {γ : Type} {generator : Generator γ} {config : EngineConfig}
    {result : r.Result} (h : r.ComesTo generator config result) (hr : r.WellFormed) :
    r.IsAnswer (r.resultType.toAny result) := by
  obtain ⟨clock, rest, hrun⟩ := h
  have hdelivers := (r.delivers_compute generator config hr).result
    (.start r.operation.name (some config.maxStates) config.timeout clock)
  rwa [hrun] at hdelivers

end Request

namespace Engine

/-- What can be done with an engine. -/
inductive Event where
  | request (clock : Clock) (r : Request)
  | clearCache
  | resetStatistics

/-- The requests of a history. -/
def Asked (history : List Event) (r : Request) : Prop := ∃ clock, .request clock r ∈ history

/-- The request at the head of a history was asked. -/
theorem asked_cons_self (clock : Clock) (r : Request) (history : List Event) :
    Asked (.request clock r :: history) r := ⟨clock, List.mem_cons_self⟩

/-- What was asked in a history was asked in a longer one. -/
theorem Asked.cons {history : List Event} {r : Request} (h : Asked history r) (event : Event) :
    Asked (event :: history) r := h.imp fun _ => List.mem_cons_of_mem event

variable {δ γ : Type} [DecidableEq δ]

/-- The engine after an event. -/
def perform (engine : Engine δ γ) : Event → Engine δ γ
  | .request clock r => (engine.request clock r).2
  | .clearCache => engine.clearCache
  | .resetStatistics => engine.resetStatistics

/-- The engine after several events, one after another. -/
def after (engine : Engine δ γ) (history : List Event) : Engine δ γ := history.foldl perform engine

/-- The counters after a computation whose result made room for itself. -/
def countStored (engine : Engine δ γ) (r : Request) (elapsed : Duration) : Statistics :=
  let statistics := countMiss engine.statistics elapsed
  let evicted := engine.cache.evictions (r.key engine.digest)
  { statistics with evictions := statistics.evictions + evicted }

/-- A request is answered from the cache, or its result is computed and stored, or it fails. -/
theorem request_cases (engine : Engine δ γ) (clock : Clock) (r : Request) :
    (∃ result, engine.cache.get? r.resultType (r.key engine.digest) = some result ∧
      engine.request clock r =
        (.ok result, { engine with statistics := countHit engine.statistics })) ∨
    (∃ result rest, engine.cache.get? r.resultType (r.key engine.digest) = none ∧
      Bounded.within (engine.budget clock r) (r.compute engine.generator engine.config) =
        (.ok result, rest) ∧
      engine.request clock r = (.ok result, { engine with
        cache := engine.cache.insert (r.key engine.digest) r.resultType result
        statistics := engine.countStored r rest.elapsed })) ∨
    (∃ e rest, engine.cache.get? r.resultType (r.key engine.digest) = none ∧
      Bounded.within (engine.budget clock r) (r.compute engine.generator engine.config) =
        (.error e, rest) ∧
      engine.request clock r = (.error e, { engine with
        statistics := countFailure (countMiss engine.statistics rest.elapsed) e })) := by
  cases hget : engine.cache.get? r.resultType (r.key engine.digest) with
  | some result => exact .inl ⟨result, rfl, by simp only [request, hget]⟩
  | none =>
    rcases hrun :
      Bounded.within (engine.budget clock r) (r.compute engine.generator engine.config) with
      ⟨e | result, rest⟩
    · exact .inr (.inr ⟨e, rest, rfl, rfl, by simp only [request, hget, hrun]⟩)
    · exact .inr (.inl ⟨result, rest, rfl, rfl, by simp only [request, hget, hrun, countStored]⟩)

variable {engine : Engine δ γ} {asked : Request → Prop}

/-- A result that is given was found in the cache or was computed. -/
theorem found_or_computed_of_answer {clock : Clock} {r : Request} {result : r.Result}
    (hanswer : (engine.request clock r).1 = .ok result) :
    engine.cache.get? r.resultType (r.key engine.digest) = some result ∨
      ∃ rest, Bounded.within (engine.budget clock r) (r.compute engine.generator engine.config) =
        (.ok result, rest) := by
  rcases engine.request_cases clock r with
    ⟨found, hget, hrequest⟩ | ⟨made, rest, -, hrun, hrequest⟩ | ⟨e, rest, -, -, hrequest⟩
  · rw [hrequest] at hanswer
    obtain rfl := Except.ok.inj hanswer
    exact .inl hget
  · rw [hrequest] at hanswer
    obtain rfl := Except.ok.inj hanswer
    exact .inr ⟨rest, hrun⟩
  · rw [hrequest] at hanswer
    contradiction

/-- An error that is given comes from the computation, and the cache stays as it is. -/
theorem computed_of_error {clock : Clock} {r : Request} {e : RequestError}
    (herror : (engine.request clock r).1 = .error e) :
    (∃ rest, Bounded.within (engine.budget clock r) (r.compute engine.generator engine.config) =
        (.error e, rest)) ∧
      (engine.request clock r).2.cache = engine.cache := by
  rcases engine.request_cases clock r with
    ⟨found, -, hrequest⟩ | ⟨made, rest, -, -, hrequest⟩ | ⟨e', rest, -, hrun, hrequest⟩
  · rw [hrequest] at herror
    contradiction
  · rw [hrequest] at herror
    contradiction
  · rw [hrequest] at herror ⊢
    obtain rfl := Except.error.inj herror
    exact ⟨⟨rest, hrun⟩, rfl⟩

/-- An event changes neither the digest nor the generator nor the configuration. -/
theorem settings_perform (engine : Engine δ γ) (event : Event) :
    (engine.perform event).digest = engine.digest ∧
      (engine.perform event).generator = engine.generator ∧
      (engine.perform event).config = engine.config := by
  cases event with
  | request clock r =>
    rcases engine.request_cases clock r with
      ⟨_, -, hrequest⟩ | ⟨_, _, -, -, hrequest⟩ | ⟨_, _, -, -, hrequest⟩
    all_goals
      rw [perform, hrequest]
      exact ⟨rfl, rfl, rfl⟩
  | clearCache | resetStatistics => exact ⟨rfl, rfl, rfl⟩

/-- A history changes neither the digest nor the generator nor the configuration. -/
theorem settings_after (engine : Engine δ γ) (history : List Event) :
    (engine.after history).digest = engine.digest ∧
      (engine.after history).generator = engine.generator ∧
      (engine.after history).config = engine.config := by
  induction history generalizing engine with
  | nil => exact ⟨rfl, rfl, rfl⟩
  | cons event history ih =>
    obtain ⟨hdigest, hgenerator, hconfig⟩ := engine.settings_perform event
    obtain ⟨hdigest', hgenerator', hconfig'⟩ := ih (engine.perform event)
    exact ⟨hdigest'.trans hdigest, hgenerator'.trans hgenerator, hconfig'.trans hconfig⟩

/-- Every remembered result was computed for one of the requests and is kept under its key. -/
def Computed (engine : Engine δ γ) (asked : Request → Prop) : Prop :=
  ∀ entry ∈ engine.cache.entries, ∃ (r : Request) (result : r.Result), asked r ∧
    r.ComesTo engine.generator engine.config result ∧
      entry = (r.key engine.digest, ⟨r.resultType, result⟩)

omit [DecidableEq δ] in
/-- A fresh engine remembers nothing, so all that it remembers was computed. -/
theorem computed_start (digest : Subject → δ) (generator : Generator γ) (config : EngineConfig) :
    (start digest generator config).Computed asked := by
  intro entry hentry
  cases hentry

/-- A request adds at most what is computed for it. -/
theorem Computed.request (h : engine.Computed asked) (clock : Clock) {r : Request}
    (hasked : asked r) : (engine.request clock r).2.Computed asked := by
  rcases engine.request_cases clock r with
    ⟨result, -, hrequest⟩ | ⟨result, rest, -, hrun, hrequest⟩ | ⟨e, rest, -, -, hrequest⟩
  · rw [hrequest]
    exact h
  · rw [hrequest]
    intro entry hentry
    rcases Cache.mem_of_mem_insert hentry with hold | rfl
    · exact h entry hold
    · exact ⟨r, result, hasked, ⟨clock, rest, hrun⟩, rfl⟩
  · rw [hrequest]
    exact h

/-- An event adds at most what is computed for its request. -/
theorem Computed.perform (h : engine.Computed asked) {event : Event}
    (hasked : ∀ clock r, event = .request clock r → asked r) :
    (engine.perform event).Computed asked := by
  cases event with
  | request clock r => exact h.request clock (hasked clock r rfl)
  | clearCache =>
    intro entry hentry
    cases hentry
  | resetStatistics => exact h

/-- Whatever happens to an engine, it remembers nothing but what it has computed. -/
theorem Computed.after (h : engine.Computed asked) {history : List Event}
    (hasked : ∀ r, Asked history r → asked r) : (engine.after history).Computed asked := by
  induction history generalizing engine with
  | nil => exact h
  | cons event history ih =>
    have hfirst : (engine.perform event).Computed asked := by
      apply h.perform
      rintro clock r rfl
      exact hasked r (asked_cons_self clock r history)
    exact ih hfirst fun r hr => hasked r (hr.cons event)

/-- The result in an answer was computed for the request or for an earlier one with its key. -/
theorem Computed.exists_of_answer (h : engine.Computed asked) {clock : Clock} {r : Request}
    {result : r.Result} (hanswer : (engine.request clock r).1 = .ok result) :
    ∃ (s : Request) (kept : s.Result), (asked s ∨ s = r) ∧
      s.ComesTo engine.generator engine.config kept ∧
      s.key engine.digest = r.key engine.digest ∧
      s.resultType.toAny kept = r.resultType.toAny result := by
  rcases found_or_computed_of_answer hanswer with hget | ⟨rest, hrun⟩
  · obtain ⟨s, kept, hasked, hkept, hentry⟩ := h _ (Cache.mem_of_get? hget)
    obtain ⟨hkey, hvalue⟩ := Prod.mk.inj hentry
    exact ⟨s, kept, .inl hasked, hkept, hkey.symm,
      (congrArg (fun value : Sigma ResultType.Value => value.1.toAny value.2) hvalue).symm⟩
  · exact ⟨r, result, .inr rfl, ⟨clock, rest, hrun⟩, rfl, rfl⟩

/-- Every remembered result was found for one of the requests, and answers it. -/
def Remembers (engine : Engine δ γ) (asked : Request → Prop) : Prop :=
  ∀ entry ∈ engine.cache.entries, ∃ r, asked r ∧ r.key engine.digest = entry.1 ∧
    (r.WellFormed → r.IsAnswer (entry.2.1.toAny entry.2.2))

omit [DecidableEq δ] in
/-- What was computed is right. -/
theorem Computed.remembers (h : engine.Computed asked) : engine.Remembers asked := by
  intro entry hentry
  obtain ⟨r, result, hasked, hresult, rfl⟩ := h entry hentry
  exact ⟨r, hasked, rfl, hresult.isAnswer⟩

/-- No request is about another subject with the digest of this request. -/
def TellsApart (digest : Subject → δ) (asked : Request → Prop) (r : Request) : Prop :=
  ∀ s, asked s → digest s.subject = digest r.subject → s.subject = r.subject

/-- The result in an answer was computed for a request for the same conversion of the same subject,
if digests tell apart what was asked for. -/
theorem Computed.exists_same (h : engine.Computed asked) {r : Request}
    (happart : TellsApart engine.digest asked r) {clock : Clock} {result : r.Result}
    (hanswer : (engine.request clock r).1 = .ok result) :
    ∃ (s : Request) (kept : s.Result), s.ComesTo engine.generator engine.config kept ∧
      r.operation = s.operation ∧ r.subject = s.subject ∧
      s.resultType.toAny kept = r.resultType.toAny result := by
  obtain ⟨s, kept, hasked, hkept, hkey, hresult⟩ := h.exists_of_answer hanswer
  obtain ⟨hoperation, hdigest⟩ := Request.of_key_eq hkey
  refine ⟨s, kept, hkept, hoperation.symm, ?_, hresult⟩
  rcases hasked with hasked | rfl
  · exact (happart s hasked hdigest).symm
  · rfl

omit [DecidableEq δ] in
/-- What is remembered under the key of a request answers it. -/
theorem Remembers.isAnswer (h : engine.Remembers asked) {r : Request} (hr : r.WellFormed)
    (happart : TellsApart engine.digest asked r) {t : ResultType} {result : t.Value}
    (hmem : (r.key engine.digest, ⟨t, result⟩) ∈ engine.cache.entries) :
    r.IsAnswer (t.toAny result) := by
  obtain ⟨s, hasked, hkey, hanswer⟩ := h _ hmem
  obtain ⟨hoperation, hdigest⟩ := Request.of_key_eq hkey
  have hsubject := happart s hasked hdigest
  exact (hanswer (hr.of_subject_eq hsubject.symm)).of_subject_eq hoperation hsubject

/-- An engine that remembers right answers does not say that the language changed, and its own
answers are right if digests tell apart what it is asked for. -/
theorem Remembers.answer (h : engine.Remembers asked) (clock : Clock) {r : Request}
    (hr : r.WellFormed) :
    match (engine.request clock r).1 with
    | .ok result => TellsApart engine.digest asked r → r.IsAnswer (r.resultType.toAny result)
    | .error e => ¬e.IsChange := by
  rcases engine.request_cases clock r with
    ⟨result, hget, hrequest⟩ | ⟨result, rest, -, hrun, hrequest⟩ | ⟨e, rest, -, hrun, hrequest⟩
  · rw [hrequest]
    intro happart
    exact h.isAnswer hr happart (Cache.mem_of_get? hget)
  · have hdelivers :=
      (r.delivers_compute engine.generator engine.config hr).result (engine.budget clock r)
    rw [hrun] at hdelivers
    rw [hrequest]
    exact fun _ => hdelivers
  · have hdelivers :=
      (r.delivers_compute engine.generator engine.config hr).result (engine.budget clock r)
    rw [hrun] at hdelivers
    rw [hrequest]
    exact hdelivers

/-- Whatever an engine was asked before, it never says that a conversion of a well-formed automaton
changed the language. Every result it gives answers the request, if no earlier request was about
another subject with the same digest: the result has the right kind and, over all words, the right
language. -/
theorem request_answers (digest : Subject → δ) (generator : Generator γ) (config : EngineConfig)
    (history : List Event) (clock : Clock) (r : Request) (hr : r.WellFormed) :
    (∀ operation w, (((start digest generator config).after history).request clock r).1 ≠
      .error (.conversion (.notEquivalent operation w))) ∧
    (TellsApart digest (Asked history) r →
      ∀ result, (((start digest generator config).after history).request clock r).1 = .ok result →
        r.IsAnswer (r.resultType.toAny result)) := by
  have hcomputed : ((start digest generator config).after history).Computed (Asked history) :=
    (computed_start digest generator config).after fun _ => id
  have hanswer := hcomputed.remembers.answer clock hr
  rw [(settings_after _ history).1] at hanswer
  constructor
  · intro operation w herror
    rw [herror] at hanswer
    exact hanswer trivial
  · intro happart result hresult
    rw [hresult] at hanswer
    exact hanswer happart

/-- An engine gives the complement of the automaton of a single word, also when it is asked
again. -/
theorem request_complement_single_word :
    let D : DFA :=
      ⟨.ofList ["p", "q"], .ofText "ab", .ofTriples [("p", 'a', "q")], "p", .ofList ["q"]⟩
    let history : List Event := [.request (fun _ => .zero) (.complement D)]
    (Request.complement D).WellFormed ∧ TellsApart id (Asked history) (.complement D) ∧
      ∃ result : DFA,
        (((new .standard).after history).request (fun _ => .zero) (.complement D)).1 =
          .ok result ∧ (AnyAutomaton.dfa D).IsComplement result := by
  intro D history
  have hD : (Request.complement D).WellFormed := by
    intro A hA
    obtain rfl := Option.some.inj hA
    apply DFA.wellFormed_ofTriples <;> simp_all [Alphabet.ofText]
  have happart : TellsApart id (Asked history) (.complement D) := fun _ _ => id
  have hsome : (((new .standard).after history).request (fun _ => .zero)
      (.complement D)).1.toOption.isSome = true := by
    unfold history D
    decide +kernel
  have hanswer := (request_answers id Wyrand.generator .standard history (fun _ => .zero)
    (.complement D) hD).2 happart
  cases hresult : (((new .standard).after history).request (fun _ => .zero)
      (.complement D)).1 with
  | error e =>
    rw [hresult] at hsome
    contradiction
  | ok result => exact ⟨hD, happart, result, rfl, hanswer result hresult⟩

end Engine

end RegularLanguages
