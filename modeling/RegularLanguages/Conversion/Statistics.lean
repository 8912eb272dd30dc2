import RegularLanguages.Json.Basic
import RegularLanguages.Text.Duration

/-!
# Statistics of conversions

Counters of what an engine has done since it was made or its counters were reset.
-/

namespace RegularLanguages

/-- What an engine has done. -/
structure Statistics where
  /-- Results that were computed, also those that failed. -/
  conversions : Nat
  /-- Requests that were answered from the cache. -/
  cacheHits : Nat
  /-- Requests that had to be computed. -/
  cacheMisses : Nat
  /-- Results that made room for others. -/
  evictions : Nat
  /-- Conversions that took too long. -/
  timeouts : Nat
  /-- Conversions that had too many states. -/
  memoryRejections : Nat
  /-- The time that computing took. -/
  totalTime : Duration
deriving DecidableEq, Repr

namespace Statistics

/-- Nothing was done. -/
def zero : Statistics := ⟨0, 0, 0, 0, 0, 0, .zero⟩

/-- The number of requests. -/
def requests (s : Statistics) : Nat := s.cacheHits + s.cacheMisses

/-- The share of requests that were answered from the cache; zero if there were none. -/
def hitRate (s : Statistics) : Float :=
  if s.requests = 0 then 0
  else s.cacheHits.toUInt64.toFloat / s.requests.toUInt64.toFloat

/-- The counters in words. -/
def text (s : Statistics) : String :=
  s.conversions.repr ++ " conversions in " ++ s.totalTime.text ++ ", " ++ s.cacheHits.repr
    ++ " hits / " ++ s.cacheMisses.repr ++ " misses, " ++ s.evictions.repr ++ " evictions, "
    ++ s.timeouts.repr ++ " timeouts, " ++ s.memoryRejections.repr ++ " memory rejections"

/-- The counters as a value. -/
def toJson (s : Statistics) : Json :=
  .object [("conversions", .nat s.conversions), ("cache_hits", .nat s.cacheHits),
    ("cache_misses", .nat s.cacheMisses), ("evictions", .nat s.evictions),
    ("timeouts", .nat s.timeouts), ("memory_rejections", .nat s.memoryRejections),
    ("total_time", .object [("secs", .nat s.totalTime.seconds),
      ("nanos", .nat s.totalTime.subseconds)])]

end Statistics

end RegularLanguages
