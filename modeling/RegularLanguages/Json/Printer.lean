import RegularLanguages.Json.Basic

/-!
# Writing JSON

Two layouts: on one line without blanks, and over several lines, indented by two blanks a level.
In strings only the quote, the backslash and the control characters below the blank are escaped.
-/

namespace RegularLanguages.Json

/-- A lower-case hexadecimal digit. -/
def hexDigit (n : Nat) : Char := Char.ofNat (if n < 10 then '0'.toNat + n else 'a'.toNat + (n - 10))

/-- A character as it stands inside a string. -/
def charText (c : Char) : String :=
  if c == '"' then "\\\""
  else if c == '\\' then "\\\\"
  else if c == '\x08' then "\\b"
  else if c == '\x0c' then "\\f"
  else if c == '\n' then "\\n"
  else if c == '\r' then "\\r"
  else if c == '\t' then "\\t"
  else if c < ' ' then
    "\\u00" ++ (hexDigit (c.toNat / 16)).toString ++ (hexDigit (c.toNat % 16)).toString
  else c.toString

/-- A text between quotes. -/
def quoted (s : String) : String := "\"" ++ String.join (s.toList.map charText) ++ "\""

/-- A number with the parts it was read with. -/
def Number.text (n : Number) : String :=
  (if n.negative then "-" else "") ++ n.whole.repr
    ++ (match n.fraction with
        | some ds => "." ++ ds
        | none => "")
    ++ (match n.exponent with
        | some e => "e" ++ e.repr
        | none => "")

/-- Items of a list on lines of their own between two brackets, or just the brackets. -/
def block (opening closing indent : String) (items : List String) : String :=
  if items.isEmpty then opening ++ closing
  else opening ++ "\n" ++ ",\n".intercalate (items.map fun item => indent ++ "  " ++ item)
    ++ "\n" ++ indent ++ closing

mutual

/-- A value on one line, without blanks. -/
def compact : Json → String
  | null => "null"
  | bool b => if b then "true" else "false"
  | number n => n.text
  | string s => quoted s
  | unpaired => quoted "\ufffd"
  | array items => "[" ++ ",".intercalate (compactItems items) ++ "]"
  | object members => "\x7b" ++ ",".intercalate (compactMembers members) ++ "\x7d"

/-- The items of an array, each on one line. -/
def compactItems : List Json → List String
  | [] => []
  | item :: items => compact item :: compactItems items

/-- The members of an object, each on one line. -/
def compactMembers : List (String × Json) → List String
  | [] => []
  | (name, value) :: members => (quoted name ++ ":" ++ compact value) :: compactMembers members

end

mutual

/-- A value over several lines; `indent` is the indentation of the line it starts in. -/
def pretty (indent : String) : Json → String
  | array items => block "[" "]" indent (prettyItems indent items)
  | object members => block "\x7b" "\x7d" indent (prettyMembers indent members)
  | json => compact json

/-- The items of an array, laid out one level deeper. -/
def prettyItems (indent : String) : List Json → List String
  | [] => []
  | item :: items => pretty (indent ++ "  ") item :: prettyItems indent items

/-- The members of an object, laid out one level deeper. -/
def prettyMembers (indent : String) : List (String × Json) → List String
  | [] => []
  | (name, value) :: members =>
    (quoted name ++ ": " ++ pretty (indent ++ "  ") value) :: prettyMembers indent members

end

end RegularLanguages.Json
