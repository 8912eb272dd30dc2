/-!
# Spans of time

A span is a number of nanoseconds. It is written in the largest unit of which it holds one at
least, followed by the exact decimal fraction without trailing zeros.
-/

namespace RegularLanguages

/-- A span of time in nanoseconds. -/
structure Duration where
  nanoseconds : Nat
deriving DecidableEq, Repr, Inhabited

namespace Duration

/-- The span of nothing. -/
def zero : Duration := ⟨0⟩

/-- One span after another. -/
def add (s t : Duration) : Duration := ⟨s.nanoseconds + t.nanoseconds⟩

/-- A span of whole milliseconds. -/
def ofMilliseconds (n : Nat) : Duration := ⟨n * 1000000⟩

/-- Whole seconds and nanoseconds beyond them. -/
def ofParts (seconds nanoseconds : Nat) : Duration := ⟨seconds * 1000000000 + nanoseconds⟩

/-- The whole seconds of a span. -/
def seconds (t : Duration) : Nat := t.nanoseconds / 1000000000

/-- The nanoseconds beyond the whole seconds. -/
def subseconds (t : Duration) : Nat := t.nanoseconds % 1000000000

/-- The decimal digits of `n` with zeros in front up to the given width. -/
def padded (width n : Nat) : List Char :=
  let ds := Nat.toDigits 10 n
  List.replicate (width - ds.length) '0' ++ ds

/-- The fraction `part / 10 ^ places` after a point, without trailing zeros; nothing for zero. -/
def fractionText (places part : Nat) : String :=
  let ds := ((padded places part).reverse.dropWhile (· == '0')).reverse
  if ds.isEmpty then "" else "." ++ String.ofList ds

/-- The nanoseconds of a unit of `10 ^ places` of them. -/
def unitSize (places : Nat) : Nat := Nat.pow 10 places

/-- The span in units of `10 ^ places` nanoseconds. -/
def inUnit (places : Nat) (unit : String) (t : Duration) : String :=
  (t.nanoseconds / unitSize places).repr
    ++ fractionText places (t.nanoseconds % unitSize places) ++ unit

/-- The span in the largest unit of which it holds one at least. -/
def text (t : Duration) : String :=
  if unitSize 9 ≤ t.nanoseconds then t.inUnit 9 "s"
  else if unitSize 6 ≤ t.nanoseconds then t.inUnit 6 "ms"
  else if unitSize 3 ≤ t.nanoseconds then t.inUnit 3 "µs"
  else t.inUnit 0 "ns"

end Duration

end RegularLanguages
