import RegularLanguages.Proofs.Engines

/-!
# What the counters of an engine say

Every request is answered from the cache, or its result is computed, or it fails, and the counters
account for that. Keys decide the types of results, so what is computed is under no key of the cache
and takes a place of its own: as long as nothing else happens to an engine, each computed result is
still in the cache or was counted when it had to go.
-/

namespace RegularLanguages

/-- The type of the results under a key. -/
def CacheKey.resultType {δ : Type} (key : CacheKey δ) : ResultType :=
  match key.operation with
  | .toNFA => .nfa
  | .toDFA | .toDFADirect | .minimize | .complement => .dfa
  | .trim => (key.sourceKind.map .ofKind).getD .any
  | .convert _ => .any
  | .compile => .epsilonNFA

/-- Results of one type are kept under one key. -/
theorem Request.resultType_key {δ : Type} (digest : Subject → δ) (r : Request) :
    (r.key digest).resultType = r.resultType := by
  cases r <;> rfl

namespace Engine

/-- What becomes of a request. -/
inductive Fate where
  /-- It is answered from the cache. -/
  | remembered
  /-- Its result is computed. -/
  | computed
  /-- It has no result. -/
  | failed
deriving DecidableEq

variable {δ γ : Type} [DecidableEq δ] {engine : Engine δ γ} {asked : Request → Prop}

/-- What becomes of a request to an engine. -/
def fate (engine : Engine δ γ) (clock : Clock) (r : Request) : Fate :=
  match (engine.request clock r).1 with
  | .ok _ =>
    if (engine.cache.get? r.resultType (r.key engine.digest)).isSome then .remembered else .computed
  | .error _ => .failed

/-- What becomes of several requests to an engine, one after another. -/
def fates (engine : Engine δ γ) : List (Clock × Request) → List Fate
  | [] => []
  | (clock, r) :: run => engine.fate clock r :: (engine.request clock r).2.fates run

/-- The engine after several requests, one after another. -/
def afterRequests (engine : Engine δ γ) (run : List (Clock × Request)) : Engine δ γ :=
  engine.after (run.map fun step => .request step.1 step.2)

/-- What is computed is under no key of an engine that remembers nothing but what it computed. -/
theorem Computed.key_notMem (h : engine.Computed asked) {r : Request}
    (hget : engine.cache.get? r.resultType (r.key engine.digest) = none) :
    r.key engine.digest ∉ engine.cache.keys := by
  rw [← Request.resultType_key engine.digest r] at hget
  refine Cache.notMem_keys_of_get?_eq_none CacheKey.resultType (fun entry hentry => ?_) hget
  obtain ⟨s, result, -, -, rfl⟩ := h entry hentry
  exact (Request.resultType_key engine.digest s).symm

/-- A failure is counted once at most and changes no other counter. -/
theorem countFailure_cases (s : Statistics) (e : RequestError) :
    countFailure s e = s ∨ countFailure s e = { s with timeouts := s.timeouts + 1 } ∨
      countFailure s e = { s with memoryRejections := s.memoryRejections + 1 } := by
  rcases e with _ | _ | (_ | _ | _)
  · exact .inl rfl
  · exact .inl rfl
  · exact .inr (.inl rfl)
  · exact .inr (.inr rfl)
  · exact .inl rfl

/-- The counters of an engine and the size of its cache account for requests that were answered from
the cache, requests whose results were computed, and requests that failed. -/
structure Accounts (engine : Engine δ γ) (hits computed failed : Nat) : Prop where
  conversions_eq : engine.statistics.conversions = engine.statistics.cacheMisses
  cacheHits_eq : engine.statistics.cacheHits = hits
  cacheMisses_eq : engine.statistics.cacheMisses = computed + failed
  refusals_le : engine.statistics.timeouts + engine.statistics.memoryRejections ≤ failed
  size_le : engine.cache.size ≤ engine.cache.capacity
  size_add_evictions : 0 < engine.cache.capacity →
    engine.cache.size + engine.statistics.evictions = computed
  of_capacity_eq_zero : engine.cache.capacity = 0 → hits = 0 ∧ engine.statistics.evictions = 0

omit [DecidableEq δ] in
/-- A fresh engine has counted nothing, which starts the induction on runs. -/
theorem accounts_start (digest : Subject → δ) (generator : Generator γ) (config : EngineConfig) :
    (start digest generator config).Accounts 0 0 0 :=
  ⟨rfl, rfl, rfl, Nat.le_refl 0, Nat.zero_le _, fun _ => rfl, fun _ => ⟨rfl, rfl⟩⟩

namespace Accounts

variable {hits computed failed : Nat}

omit [DecidableEq δ] in
/-- An answer from the cache is accounted for. A cache without capacity gives none. -/
theorem countHit (h : engine.Accounts hits computed failed) (hsize : 0 < engine.cache.size) :
    Accounts { engine with statistics := Engine.countHit engine.statistics }
      (hits + 1) computed failed where
  conversions_eq := h.conversions_eq
  cacheHits_eq := congrArg (· + 1) h.cacheHits_eq
  cacheMisses_eq := h.cacheMisses_eq
  refusals_le := h.refusals_le
  size_le := h.size_le
  size_add_evictions := h.size_add_evictions
  of_capacity_eq_zero hzero := absurd (hzero ▸ h.size_le) (Nat.not_le.mpr hsize)

/-- A computed result is accounted for. It takes a place of its own if there is any. -/
theorem countStored (h : engine.Accounts hits computed failed) {r : Request}
    (hkey : r.key engine.digest ∉ engine.cache.keys) (result : r.Result) (elapsed : Duration) :
    Accounts { engine with
      cache := engine.cache.insert (r.key engine.digest) r.resultType result
      statistics := engine.countStored r elapsed } hits (computed + 1) failed where
  conversions_eq := congrArg (· + 1) h.conversions_eq
  cacheHits_eq := h.cacheHits_eq
  cacheMisses_eq := (congrArg (· + 1) h.cacheMisses_eq).trans (Nat.add_right_comm _ _ _)
  refusals_le := h.refusals_le
  size_le := by
    rw [Cache.capacity_insert]
    obtain hzero | hpos := Nat.eq_zero_or_pos engine.cache.capacity
    · rw [Cache.insert_of_capacity_eq_zero hzero]
      exact h.size_le
    · exact (engine.cache.size_insert result hpos hkey).1
  size_add_evictions hpos := by
    rw [Cache.capacity_insert] at hpos
    have hsize := (engine.cache.size_insert result hpos hkey).2
    have hbefore := h.size_add_evictions hpos
    change (engine.cache.insert (r.key engine.digest) r.resultType result).size +
      (engine.statistics.evictions + engine.cache.evictions (r.key engine.digest)) = computed + 1
    omega
  of_capacity_eq_zero hzero := by
    rw [Cache.capacity_insert] at hzero
    refine (h.of_capacity_eq_zero hzero).imp_right fun hevictions => ?_
    change engine.statistics.evictions + engine.cache.evictions (r.key engine.digest) = 0
    rw [hevictions, Cache.evictions_of_capacity_eq_zero hzero]

omit [DecidableEq δ] in
/-- A failure is accounted for. -/
theorem countFailure (h : engine.Accounts hits computed failed) (elapsed : Duration)
    (e : RequestError) :
    Accounts { engine with
      statistics := Engine.countFailure (countMiss engine.statistics elapsed) e }
        hits computed (failed + 1) := by
  have hmisses : engine.statistics.cacheMisses + 1 = computed + (failed + 1) :=
    congrArg (· + 1) h.cacheMisses_eq
  have hrefusals := h.refusals_le
  rcases countFailure_cases (countMiss engine.statistics elapsed) e with hcount | hcount | hcount
  all_goals
    rw [hcount]
    refine ⟨congrArg (· + 1) h.conversions_eq, h.cacheHits_eq, hmisses, ?_, h.size_le,
      h.size_add_evictions, h.of_capacity_eq_zero⟩
    dsimp only [countMiss]
    omega

/-- What becomes of a request is accounted for. -/
theorem request (h : engine.Accounts hits computed failed) (hcomputed : engine.Computed asked)
    (clock : Clock) (r : Request) :
    (engine.request clock r).2.Accounts (hits + [engine.fate clock r].count .remembered)
      (computed + [engine.fate clock r].count .computed)
      (failed + [engine.fate clock r].count .failed) := by
  rcases engine.request_cases clock r with
    ⟨result, hget, hrequest⟩ | ⟨result, rest, hget, -, hrequest⟩ | ⟨e, rest, hget, -, hrequest⟩
  · have hfate : engine.fate clock r = .remembered := by
      rw [fate, hrequest, hget]
      rfl
    rw [hrequest, hfate]
    exact h.countHit (List.length_pos_of_mem (Cache.mem_of_get? hget))
  · have hfate : engine.fate clock r = .computed := by
      rw [fate, hrequest, hget]
      rfl
    rw [hrequest, hfate]
    exact h.countStored (hcomputed.key_notMem hget) result rest.elapsed
  · have hfate : engine.fate clock r = .failed := by rw [fate, hrequest]
    rw [hrequest, hfate]
    exact h.countFailure rest.elapsed e

/-- What becomes of several requests is accounted for. -/
theorem afterRequests (h : engine.Accounts hits computed failed)
    (hcomputed : engine.Computed fun _ => True) (run : List (Clock × Request)) :
    (engine.afterRequests run).Accounts (hits + (engine.fates run).count .remembered)
      (computed + (engine.fates run).count .computed)
      (failed + (engine.fates run).count .failed) := by
  induction run generalizing engine hits computed failed with
  | nil => exact h
  | cons step run ih =>
    obtain ⟨clock, r⟩ := step
    have hrest := ih (h.request hcomputed clock r) (hcomputed.request clock trivial)
    simp only [Nat.add_assoc, ← List.count_append] at hrest
    exact hrest

end Accounts

/-- There are as many requests as things that become of them. -/
theorem length_fates (engine : Engine δ γ) (run : List (Clock × Request)) :
    (engine.fates run).length = run.length := by
  induction run generalizing engine with
  | nil => rfl
  | cons step run ih => exact congrArg (· + 1) (ih _)

/-- Each request has one of three fates, so the numbers of these add up to the number of
requests. -/
theorem count_fates (fates : List Fate) :
    fates.count .remembered + (fates.count .computed + fates.count .failed) = fates.length := by
  induction fates with
  | nil => rfl
  | cons fate fates ih =>
    cases fate <;> simp <;> omega

/-- A request does not change the capacity of the cache. -/
theorem capacity_request (engine : Engine δ γ) (clock : Clock) (r : Request) :
    (engine.request clock r).2.cache.capacity = engine.cache.capacity := by
  rcases engine.request_cases clock r with
    ⟨_, -, hrequest⟩ | ⟨_, _, -, -, hrequest⟩ | ⟨_, _, -, -, hrequest⟩
  · rw [hrequest]
  · rw [hrequest]
    exact Cache.capacity_insert
  · rw [hrequest]

/-- Requests do not change the capacity of the cache. -/
theorem capacity_afterRequests (engine : Engine δ γ) (run : List (Clock × Request)) :
    (engine.afterRequests run).cache.capacity = engine.cache.capacity := by
  induction run generalizing engine with
  | nil => rfl
  | cons step run ih => exact (ih _).trans (engine.capacity_request step.1 step.2)

/-- As long as an engine is only asked for conversions, its counters say what became of the
requests: each was answered from the cache or counted as a conversion that was missed, and what
timed out or had too many states failed. The cache keeps its capacity, and if there is any, each
result that was computed is still in it or was counted when it had to go; otherwise nothing is
answered from it and nothing has to go. A request that fails leaves the cache as it is. -/
theorem counters_account_for_requests (digest : Subject → δ) (generator : Generator γ)
    (config : EngineConfig) (run : List (Clock × Request)) :
    let engine := (start digest generator config).afterRequests run
    let counters := engine.statistics
    let fates := (start digest generator config).fates run
    counters.conversions = counters.cacheMisses ∧
      counters.cacheHits + counters.cacheMisses = run.length ∧
      (counters.cacheHits = fates.count .remembered ∧
        counters.cacheMisses = fates.count .computed + fates.count .failed) ∧
      counters.timeouts + counters.memoryRejections ≤ fates.count .failed ∧
      engine.cache.size ≤ config.cacheCapacity ∧
      (0 < config.cacheCapacity → engine.cache.size + counters.evictions = fates.count .computed) ∧
      (config.cacheCapacity = 0 → counters.cacheHits = 0 ∧ counters.evictions = 0) ∧
      ∀ clock r e, (engine.request clock r).1 = .error e →
        (engine.request clock r).2.cache = engine.cache := by
  intro engine counters fates
  have haccounts := (accounts_start digest generator config).afterRequests
    (computed_start digest generator config) run
  simp only [Nat.zero_add] at haccounts
  have hcapacity : engine.cache.capacity = config.cacheCapacity :=
    (start digest generator config).capacity_afterRequests run
  have htotal : counters.cacheHits + counters.cacheMisses = run.length := by
    rw [haccounts.cacheHits_eq, haccounts.cacheMisses_eq, count_fates, length_fates]
  refine ⟨haccounts.conversions_eq, htotal, ⟨haccounts.cacheHits_eq, haccounts.cacheMisses_eq⟩,
    haccounts.refusals_le, ?_, ?_, ?_, fun clock r e herror => (computed_of_error herror).2⟩
  · rw [← hcapacity]
    exact haccounts.size_le
  · intro hpos
    exact haccounts.size_add_evictions (hcapacity ▸ hpos)
  · intro hzero
    obtain ⟨hhits, hevictions⟩ := haccounts.of_capacity_eq_zero (hcapacity.trans hzero)
    exact ⟨haccounts.cacheHits_eq.trans hhits, hevictions⟩

/-- Three conversions, the third like the first, and a pattern that cannot be read. With room for
one result, all three are computed and two have to go; without room nothing has to go. -/
theorem counters_of_alternating_requests :
    let D : DFA :=
      ⟨.ofList ["p", "q"], .ofText "ab", .ofTriples [("p", 'a', "q")], "p", .ofList ["q"]⟩
    let config (capacity : Nat) := { EngineConfig.standard with cacheCapacity := capacity }
    let run : List (Clock × Request) :=
      [(fun _ => .zero, .complement D), (fun _ => .zero, .toNFA D),
        (fun _ => .zero, .complement D), (fun _ => .zero, .compile "(" D.alphabet)]
    (((start id Wyrand.generator (config 1)).afterRequests run).cache.size = 1 ∧
      ((start id Wyrand.generator (config 1)).afterRequests run).statistics.evictions = 2) ∧
    (((start id Wyrand.generator (config 0)).afterRequests run).statistics.cacheHits = 0 ∧
      ((start id Wyrand.generator (config 0)).afterRequests run).statistics.evictions = 0) ∧
    ∃ e, (((start id Wyrand.generator (config 1)).afterRequests run).request (fun _ => .zero)
        (.compile "(" D.alphabet)).1 = .error e ∧
      (((start id Wyrand.generator (config 1)).afterRequests run).request (fun _ => .zero)
        (.compile "(" D.alphabet)).2.cache =
          ((start id Wyrand.generator (config 1)).afterRequests run).cache := by
  intro D config run
  obtain ⟨-, -, -, -, -, hfull, -, hfailed⟩ :=
    counters_account_for_requests id Wyrand.generator (config 1) run
  obtain ⟨-, -, -, -, -, -, hroomless, -⟩ :=
    counters_account_for_requests id Wyrand.generator (config 0) run
  have hcomputed : ((start id Wyrand.generator (config 1)).fates run).count .computed = 3 := by
    decide +kernel
  have hsize : ((start id Wyrand.generator (config 1)).afterRequests run).cache.size = 1 := by
    decide +kernel
  have herror : (((start id Wyrand.generator (config 1)).afterRequests run).request (fun _ => .zero)
      (.compile "(" D.alphabet)).1.toOption.isNone = true := by decide +kernel
  have htotal := hfull Nat.one_pos
  rw [hcomputed, hsize] at htotal
  refine ⟨⟨hsize, by omega⟩, hroomless rfl, ?_⟩
  cases hanswer : (((start id Wyrand.generator (config 1)).afterRequests run).request
      (fun _ => .zero) (.compile "(" D.alphabet)).1 with
  | ok result =>
    rw [hanswer] at herror
    cases herror
  | error e => exact ⟨e, rfl, hfailed _ _ e hanswer⟩

end Engine

end RegularLanguages
