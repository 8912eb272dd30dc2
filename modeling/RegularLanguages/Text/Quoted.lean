import RegularLanguages.Text.CharacterClass

/-!
# Quoted texts

Strings and characters as they are written in one-line descriptions of values. What cannot be
seen by itself, and the quote that surrounds it, is escaped; everything else stands for itself.
-/

namespace RegularLanguages.Text

/-- Hexadecimal digits of a code point, in lower case and without padding. -/
def hexadecimal (n : Nat) : String := String.ofList (Nat.toDigits 16 n)

/-- Whether a character is invisible by itself: it is unprintable, left out by a display or without
a shape of its own beside the character that it extends. -/
def isInvisible (c : Char) : Bool :=
  unprintable.contains c || defaultIgnorable.contains c ||
    graphemeExtending.contains c && !halfwidthVoicing.contains c

/-- A character inside quotes of the given kind. -/
def escaped (quote c : Char) : String :=
  if c == '\x00' then "\\0"
  else if c == '\t' then "\\t"
  else if c == '\n' then "\\n"
  else if c == '\r' then "\\r"
  else if c == '\\' || c == quote then "\\" ++ c.toString
  else if ' ' ≤ c && c ≤ '~' then c.toString
  else if isInvisible c then "\\u\x7b" ++ hexadecimal c.toNat ++ "\x7d"
  else c.toString

/-- A string between double quotes. -/
def quotedString (s : String) : String := "\"" ++ String.join (s.toList.map (escaped '"')) ++ "\""

/-- A character between single quotes. -/
def quotedChar (c : Char) : String := "'" ++ escaped '\'' c ++ "'"

/-- Written items between two brackets, separated by commas. -/
def enclosed (opening closing : String) (items : List String) : String :=
  opening ++ ", ".intercalate items ++ closing

/-- A set: its written items between braces. -/
def braced (items : List String) : String := enclosed "\x7b" "\x7d" items

/-- A list: its written items between square brackets. -/
def bracketed (items : List String) : String := enclosed "[" "]" items

/-- A record: its name and its written fields by name. -/
def record (name : String) (fields : List (String × String)) : String :=
  enclosed (name ++ " \x7b ") " \x7d" (fields.map fun (field, value) => field ++ ": " ++ value)

end RegularLanguages.Text
