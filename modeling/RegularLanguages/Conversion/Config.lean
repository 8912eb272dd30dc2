import RegularLanguages.Json.Reader
import RegularLanguages.Json.Printer
import RegularLanguages.Text.Duration

/-!
# Settings of conversions

Limits of conversions and of the cache, and how results are checked. Settings are read from JSON,
where every field may be missing.
-/

namespace RegularLanguages

/-- Settings of a conversion engine. -/
structure EngineConfig where
  /-- The largest number of states of a source or a result. -/
  maxStates : Nat
  /-- The time a conversion may take. -/
  timeout : Option Duration
  /-- The number of results that are kept. -/
  cacheCapacity : Nat
  /-- The length of the longest words on which results are checked. -/
  probeLength : Nat
  /-- The largest number of words on which a result is checked. -/
  maxProbes : Nat
  /-- Where the choice of words begins if there are too many to check them all. -/
  probeSeed : UInt64
  /-- Whether results are checked. -/
  validate : Bool
deriving DecidableEq, Repr

namespace EngineConfig

/-- The settings that are used unless others are given. -/
def standard : EngineConfig where
  maxStates := 10000
  timeout := none
  cacheCapacity := 128
  probeLength := 6
  maxProbes := 2048
  probeSeed := 0x5eed
  validate := true

/-- The time limit in whole milliseconds. -/
def timeoutMilliseconds? (config : EngineConfig) : Option Nat :=
  config.timeout.map fun t => t.nanoseconds / 1000000

/-- The names of the fields in their order. -/
def fieldNames : List String :=
  ["max_states", "timeout_ms", "cache_capacity", "probe_length", "max_probes", "probe_seed",
    "validate"]

/-- A field that keeps its standard value if it is missing. -/
def field? {α : Type} (standard : α) (read : Json → Option α) : Option Json → Option α
  | none => some standard
  | some json => read json

/-- A time limit in milliseconds, or none. -/
def timeoutOfJson? : Json → Option (Option Duration)
  | .null => some none
  | json => json.asCount?.map fun n => some (Duration.ofMilliseconds n)

/-- The settings that a value stands for. -/
def ofJson? (json : Json) : Option EngineConfig := do
  match ← json.record? fieldNames with
  | [maxStates, timeout, cacheCapacity, probeLength, maxProbes, probeSeed, validate] =>
    return {
      maxStates := ← field? standard.maxStates Json.asCount? maxStates
      timeout := ← field? standard.timeout timeoutOfJson? timeout
      cacheCapacity := ← field? standard.cacheCapacity Json.asCount? cacheCapacity
      probeLength := ← field? standard.probeLength Json.asCount? probeLength
      maxProbes := ← field? standard.maxProbes Json.asCount? maxProbes
      probeSeed := ← field? standard.probeSeed (fun j => j.asCount?.map UInt64.ofNat) probeSeed
      validate := ← field? standard.validate Json.asBool? validate }
  | _ => none

/-- The settings that a text is written for. -/
def ofText? (text : String) : Option EngineConfig := (Json.ofText? text).bind ofJson?

/-- The settings as a value. -/
def toJson (config : EngineConfig) : Json :=
  .object (fieldNames.zip
    [.nat config.maxStates,
      match config.timeoutMilliseconds? with
      | some n => .nat (min n (Nat.pow 2 64 - 1))
      | none => .null,
      .nat config.cacheCapacity, .nat config.probeLength, .nat config.maxProbes,
      .nat config.probeSeed.toNat, .bool config.validate])

end EngineConfig

end RegularLanguages
