import RegularLanguages.Pattern.Error
import Std.Data.ExtTreeMap

/-!
# From characters to tokens

The rules of a pattern are its alphabet, the named classes of symbols and the depth to which
groups may be nested. A pattern is split from left to right, each token being one character or a
backslash with the character behind it. The first character that is no token ends the tokens. They
are split off all at once, or one at a time by a cursor.
-/

namespace RegularLanguages.Pattern

/-- What a pattern may use. -/
structure Rules where
  alphabet : Alphabet
  /-- The members of the classes by name, also those that are not in the alphabet. -/
  classes : Std.ExtTreeMap Char Alphabet
  /-- The largest number of groups inside each other. -/
  maxDepth : Nat

namespace Rules

/-- The nesting that is allowed unless the rules say otherwise. -/
def defaultMaxDepth : Nat := 256

/-- The decimal digits. -/
def digits : List Char := "0123456789".toList

/-- The letters of both cases, the digits and the underscore. -/
def wordCharacters : List Char :=
  "abcdefghijklmnopqrstuvwxyzABCDEFGHIJKLMNOPQRSTUVWXYZ_".toList ++ digits

/-- Blank, tabulators, line breaks and form feed. -/
def blanks : List Char := [' ', '\t', '\n', '\r', '\x0b', '\x0c']

/-- The classes that are known unless the rules say otherwise. -/
def defaultClasses : Std.ExtTreeMap Char Alphabet :=
  Std.ExtTreeMap.ofList
    [('d', Alphabet.ofList digits), ('w', Alphabet.ofList wordCharacters),
      ('s', Alphabet.ofList blanks)]

/-- The rules over an alphabet, with the classes and the nesting that are the default. -/
def ofAlphabet (alphabet : Alphabet) : Rules := ⟨alphabet, defaultClasses, defaultMaxDepth⟩

/-- The rules without any class. -/
def withoutClasses (rules : Rules) : Rules := { rules with classes := ∅ }

/-- The rules with one more class, in place of one of the same name. -/
def withClass (rules : Rules) (name : Char) (members : Alphabet) : Rules :=
  { rules with classes := rules.classes.insert name members }

/-- The rules with another bound on the nesting. -/
def withMaxDepth (rules : Rules) (maxDepth : Nat) : Rules := { rules with maxDepth }

/-- The symbols of the alphabet that belong to a class, if the class is known. -/
def members? (rules : Rules) (name : Char) : Option Alphabet :=
  rules.classes[name]?.map fun members => members.filter fun a => rules.alphabet.contains a

end Rules

/-- The token of a character that stands for itself. -/
def plainKind (rules : Rules) (c : Char) : Except LexicalFault TokenKind :=
  if c == '|' then .ok .union
  else if c == '*' then .ok .star
  else if c == '+' then .ok .plus
  else if c == '?' then .ok .optional
  else if c == '(' then .ok .opening
  else if c == ')' then .ok .closing
  else if c == epsilonSymbol then .ok .epsilon
  else if c == emptyLanguageSymbol then .ok .empty
  else if rules.alphabet.contains c then .ok (.literal c)
  else .error (.unknownCharacter c)

/-- The token of a character behind a backslash. The names of classes that are metacharacters are
never used. -/
def escapedKind (rules : Rules) (c : Char) : Except LexicalFault TokenKind :=
  if c ∈ metacharacters then
    if rules.alphabet.contains c then .ok (.literal c) else .error (.foreignEscape c)
  else if rules.classes.contains c then .ok (.symbolClass c)
  else .error (.unknownEscape c)

/-- The tokens in front of the first error, and the error if there is one. -/
structure Lexed where
  tokens : List Token
  error : Option PatternError
deriving DecidableEq

namespace Lexed

/-- The tokens that begin with one whose kind is known, or the error at its place. -/
def cons (position : Nat) (kind : Except LexicalFault TokenKind) (rest : Lexed) : Lexed :=
  match kind with
  | .ok kind => { rest with tokens := ⟨kind, position⟩ :: rest.tokens }
  | .error fault => ⟨[], some (.lexical position fault)⟩

/-- The tokens of the characters from the given byte on. -/
def ofChars (rules : Rules) : (position : Nat) → List Char → Lexed
  | _, [] => ⟨[], none⟩
  | position, c :: rest =>
    if c == '\\' then
      match rest with
      | [] => ⟨[], some (.lexical position .truncatedEscape)⟩
      | e :: rest =>
        cons position (escapedKind rules e)
          (ofChars rules (position + c.utf8Size + e.utf8Size) rest)
    else cons position (plainKind rules c) (ofChars rules (position + c.utf8Size) rest)

/-- The tokens of a whole pattern. -/
def ofText (rules : Rules) (pattern : String) : Lexed := ofChars rules 0 pattern.toList

/-- All tokens, unless there is an error. -/
def all (lexed : Lexed) : Except PatternError (List Token) :=
  match lexed.error with
  | some e => .error e
  | none => .ok lexed.tokens

end Lexed

/-- A place in a pattern from which tokens are taken one at a time. -/
structure Cursor where
  position : Nat
  /-- The characters from the place on. -/
  rest : List Char
  /-- Whether an error has been met. -/
  failed : Bool
deriving DecidableEq, Repr

namespace Cursor

/-- The beginning of a pattern. -/
def start (pattern : String) : Cursor := ⟨0, pattern.toList, false⟩

/-- The token of a known kind, or the error in its place, and the place where to go on. -/
def answer (position : Nat) (kind : Except LexicalFault TokenKind) (next : Nat)
    (rest : List Char) : Except PatternError Token × Cursor :=
  match kind with
  | .ok kind => (.ok ⟨kind, position⟩, ⟨next, rest, false⟩)
  | .error fault => (.error (.lexical position fault), ⟨next, rest, true⟩)

/-- The next token or an error, and the place where to go on. Nothing comes behind an error. -/
def next? (rules : Rules) (cursor : Cursor) : Option (Except PatternError Token × Cursor) :=
  if cursor.failed then none
  else
    match cursor.rest with
    | [] => none
    | c :: rest =>
      let next := cursor.position + c.utf8Size
      if c == '\\' then
        match rest with
        | [] => some (answer cursor.position (.error .truncatedEscape) next [])
        | e :: rest => some (answer cursor.position (escapedKind rules e) (next + e.utf8Size) rest)
      else some (answer cursor.position (plainKind rules c) next rest)

end Cursor

end RegularLanguages.Pattern
