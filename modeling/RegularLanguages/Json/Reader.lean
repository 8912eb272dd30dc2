import RegularLanguages.Json.Basic

/-!
# Reading JSON

Strict JSON: blanks around values are allowed, nothing else may follow. Each reader takes the
characters that are left and answers with a value and what is left after it, or nothing if the
text is ill formed. Nesting is bounded by the length of the text, which is what the recursion of
`value?` counts down.
-/

namespace RegularLanguages.Json

/-- The four characters that may stand between values. -/
def isBlank (c : Char) : Bool := c == ' ' || c == '\t' || c == '\n' || c == '\r'

/-- What follows the blanks at the front. -/
def skipBlanks (chars : List Char) : List Char := chars.dropWhile isBlank

/-- The value of a hexadecimal digit of either case. -/
def hexDigit? (c : Char) : Option Nat :=
  if '0' ≤ c ∧ c ≤ '9' then some (c.toNat - '0'.toNat)
  else if 'a' ≤ c ∧ c ≤ 'f' then some (c.toNat - 'a'.toNat + 10)
  else if 'A' ≤ c ∧ c ≤ 'F' then some (c.toNat - 'A'.toNat + 10)
  else none

/-- The value of four hexadecimal digits. -/
def codeUnit? (a b c d : Char) : Option Nat := do
  let a ← hexDigit? a
  let b ← hexDigit? b
  let c ← hexDigit? c
  let d ← hexDigit? d
  return ((a * 16 + b) * 16 + c) * 16 + d

/-- Whether a code unit opens a surrogate pair. -/
def isHighSurrogate (unit : Nat) : Bool := 0xD800 ≤ unit && unit < 0xDC00

/-- Whether a code unit closes a surrogate pair. -/
def isLowSurrogate (unit : Nat) : Bool := 0xDC00 ≤ unit && unit < 0xE000

/-- The code point of a surrogate pair. -/
def pairedPoint (high low : Nat) : Nat := 0x10000 + (high - 0xD800) * 0x400 + (low - 0xDC00)

/-- Adds a code unit to the code points read so far, last one first: the second half of a pair
joins the first half right before it. -/
def pushUnit (done : List Nat) (unit : Nat) : List Nat :=
  match done with
  | high :: before =>
    if isHighSurrogate high && isLowSurrogate unit then pairedPoint high unit :: before
    else unit :: done
  | [] => [unit]

/-- The string of the code points read, last one first. -/
def ofPoints (done : List Nat) : Json :=
  if done.any fun p => isHighSurrogate p || isLowSurrogate p then unpaired
  else string (String.ofList (done.reverse.map Char.ofNat))

/-- The object of the members read, last one first, with their names as they were read. -/
def ofMembers (done : List (Json × Json)) : Json :=
  match done.reverse.mapM fun (name, value) => name.asText?.map (·, value) with
  | some members => object members
  | none => unpaired

/-- The character of a one-letter escape. -/
def escapedChar? : Char → Option Char
  | '"' => some '"'
  | '\\' => some '\\'
  | '/' => some '/'
  | 'b' => some '\x08'
  | 'f' => some '\x0c'
  | 'n' => some '\n'
  | 'r' => some '\r'
  | 't' => some '\t'
  | _ => none

/-- The rest of a string and what follows its closing quote; `done` holds the code points so far,
last one first. -/
def stringTail? (done : List Nat) : List Char → Option (Json × List Char)
  | '"' :: rest => some (ofPoints done, rest)
  | '\\' :: 'u' :: a :: b :: c :: d :: rest =>
    match codeUnit? a b c d with
    | none => none
    | some unit => stringTail? (pushUnit done unit) rest
  | '\\' :: c :: rest =>
    match escapedChar? c with
    | none => none
    | some e => stringTail? (e.toNat :: done) rest
  | c :: rest => if c < ' ' || c == '\\' then none else stringTail? (c.toNat :: done) rest
  | [] => none

/-- Splits off the decimal digits at the front. -/
def digits (chars : List Char) : List Char × List Char := chars.span Char.isDigit

/-- The natural with the given decimal digits. -/
def decimal (digits : List Char) : Nat :=
  digits.foldl (fun n c => 10 * n + (c.toNat - '0'.toNat)) 0

/-- The part of a number after the point, if there is a point; it has a digit at least. -/
def fraction? : List Char → Option (Option String × List Char)
  | '.' :: rest =>
    match digits rest with
    | ([], _) => none
    | (ds, rest) => some (some (String.ofList ds), rest)
  | rest => some (none, rest)

/-- The sign at the front of an exponent; a missing one is a plus. -/
def exponentSign : List Char → Bool × List Char
  | '-' :: rest => (true, rest)
  | '+' :: rest => (false, rest)
  | rest => (false, rest)

/-- The power of ten that a number ends with, if it has one; it has a digit at least. -/
def exponent? : List Char → Option (Option Int × List Char)
  | c :: rest =>
    if c == 'e' || c == 'E' then
      let (negative, rest) := exponentSign rest
      match digits rest with
      | ([], _) => none
      | (ds, rest) => some (some (if negative then -(decimal ds : Int) else decimal ds), rest)
    else some (none, c :: rest)
  | [] => some (none, [])

/-- A number from its first digit on. A leading zero stands alone. -/
def unsigned? (negative : Bool) (chars : List Char) : Option (Json × List Char) :=
  match digits chars with
  | ([], _) => none
  | ('0' :: _ :: _, _) => none
  | (ds, rest) => do
    let (fraction, rest) ← fraction? rest
    let (exponent, rest) ← exponent? rest
    return (number ⟨negative, decimal ds, fraction, exponent⟩, rest)

/-- The rest of the text after a word that has to stand at its front. -/
def expect? : List Char → List Char → Option (List Char)
  | [], chars => some chars
  | w :: word, c :: chars => if w == c then expect? word chars else none
  | _ :: _, [] => none

mutual

/-- A value at the front, with nesting at most `depth`. -/
def value? : (depth : Nat) → List Char → Option (Json × List Char)
  | 0, _ => none
  | depth + 1, chars =>
    match skipBlanks chars with
    | 'n' :: rest => (expect? ['u', 'l', 'l'] rest).map (null, ·)
    | 't' :: rest => (expect? ['r', 'u', 'e'] rest).map (bool true, ·)
    | 'f' :: rest => (expect? ['a', 'l', 's', 'e'] rest).map (bool false, ·)
    | '"' :: rest => stringTail? [] rest
    | '[' :: rest =>
      match skipBlanks rest with
      | ']' :: rest => some (array [], rest)
      | rest => items? depth [] rest
    | '\x7b' :: rest =>
      match skipBlanks rest with
      | '\x7d' :: rest => some (object [], rest)
      | rest => members? depth [] rest
    | '-' :: rest => unsigned? true rest
    | rest => unsigned? false rest

/-- The items of an array that has one at least; `done` holds those before, last one first. -/
def items? : (depth : Nat) → (done : List Json) → List Char → Option (Json × List Char)
  | 0, _, _ => none
  | depth + 1, done, chars =>
    match value? depth chars with
    | none => none
    | some (item, rest) =>
      match skipBlanks rest with
      | ']' :: rest => some (array (item :: done).reverse, rest)
      | ',' :: rest => items? depth (item :: done) rest
      | _ => none

/-- The members of an object that has one at least; `done` holds those before, last one first. -/
def members? : (depth : Nat) → (done : List (Json × Json)) → List Char → Option (Json × List Char)
  | 0, _, _ => none
  | depth + 1, done, chars =>
    match skipBlanks chars with
    | '"' :: rest =>
      match stringTail? [] rest with
      | none => none
      | some (name, rest) =>
        match skipBlanks rest with
        | ':' :: rest =>
          match value? depth rest with
          | none => none
          | some (value, rest) =>
            match skipBlanks rest with
            | '\x7d' :: rest => some (ofMembers ((name, value) :: done), rest)
            | ',' :: rest => members? depth ((name, value) :: done) rest
            | _ => none
        | _ => none
    | _ => none

end

/-- The value that a whole text is written for. -/
def ofText? (text : String) : Option Json :=
  let chars := text.toList
  match value? (chars.length + 1) chars with
  | none => none
  | some (json, rest) => if (skipBlanks rest).isEmpty then some json else none

end RegularLanguages.Json
