/-!
# JSON values

Values as they stand in a text: numbers keep the parts they are written with, objects keep the
order and the repetitions of their members. A string whose escapes denote no text, and an object
with a member of such a name, stand as a value of their own, which can be passed over but never
read.
-/

namespace RegularLanguages

/-- A number by its written parts, so that `1`, `1.0` and `1e0` stay apart. -/
structure Json.Number where
  negative : Bool
  whole : Nat
  fraction : Option String
  exponent : Option Int
deriving DecidableEq, Repr

/-- A JSON value. -/
inductive Json where
  | null
  | bool (b : Bool)
  | number (n : Json.Number)
  | string (s : String)
  /-- A string with an escaped surrogate that lacks its partner, or an object with a member of such
  a name. -/
  | unpaired
  | array (items : List Json)
  | object (members : List (String × Json))
deriving Inhabited, Repr

namespace Json

/-- The number that is written as a natural in full. -/
def nat (n : Nat) : Json := number ⟨false, n, none, none⟩

/-- The natural that is written in full, without sign, fraction or exponent. -/
def asNat? : Json → Option Nat
  | number ⟨false, n, none, none⟩ => some n
  | _ => none

/-- The integer that is written in full, without fraction or exponent. -/
def asInt? : Json → Option Int
  | number ⟨negative, n, none, none⟩ => some (if negative then -n else n)
  | _ => none

/-- The naturals below two to the power of 64 are the counts of this library. -/
def asCount? (json : Json) : Option Nat :=
  match json.asNat? with
  | some n => if n < Nat.pow 2 64 then some n else none
  | none => none

/-- The text of a string. -/
def asText? : Json → Option String
  | string s => some s
  | _ => none

/-- The truth value. -/
def asBool? : Json → Option Bool
  | bool b => some b
  | _ => none

/-- The items of an array. -/
def asArray? : Json → Option (List Json)
  | array items => some items
  | _ => none

/-- The texts of an array of strings. -/
def asTexts? (json : Json) : Option (List String) := do
  (← json.asArray?).mapM asText?

/-- The double nearest to the written number. -/
def asFloat? : Json → Option Float
  | number n =>
    let digits := (n.fraction.getD "").toList
    let mantissa := digits.foldl (fun m c => 10 * m + (c.toNat - '0'.toNat)) n.whole
    let exponent := n.exponent.getD 0 - digits.length
    let size := Float.ofScientific mantissa (exponent < 0) exponent.natAbs
    some (if n.negative then -size else size)
  | _ => none

/-- The first member of an object with the given name. -/
def member? (json : Json) (name : String) : Option Json :=
  match json with
  | object members => members.lookup name
  | _ => none

/-- The fields of a record, by name from an object or by position from an array. An unknown member
is passed over; a known one that is repeated, or an array with too many items, is no record. -/
def record? (names : List String) : Json → Option (List (Option Json))
  | object members =>
    names.mapM fun name =>
      match members.filter (·.1 == name) with
      | [] => some none
      | [(_, value)] => some (some value)
      | _ => none
  | array items =>
    if items.length ≤ names.length then
      some ((items.map some) ++ List.replicate (names.length - items.length) none)
    else none
  | _ => none

end Json

end RegularLanguages
