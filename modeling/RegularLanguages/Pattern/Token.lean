import RegularLanguages.Regex.Basic

/-!
# Tokens of a pattern

The units that a pattern is made of, each with the byte at which it begins.
-/

namespace RegularLanguages.Pattern

/-- What a token is, with its value where it has one. -/
inductive TokenKind where
  /-- A symbol of the alphabet. -/
  | literal (a : Symbol)
  /-- A named class of symbols. -/
  | symbolClass (name : Char)
  | epsilon
  | empty
  | union
  | star
  | plus
  | optional
  /-- An opening parenthesis. -/
  | opening
  /-- A closing parenthesis. -/
  | closing
deriving DecidableEq, Repr

namespace TokenKind

/-- Whether an operand can begin with the token. -/
def startsAtom : TokenKind → Bool
  | literal _ | symbolClass _ | epsilon | empty | opening => true
  | _ => false

/-- Whether the token is an operator written behind its operand. -/
def isPostfix : TokenKind → Bool
  | star | plus | optional => true
  | _ => false

/-- The token as it stands in messages. -/
def text : TokenKind → String
  | literal a => "literal `" ++ a.toString ++ "`"
  | symbolClass name => "class `\\" ++ name.toString ++ "`"
  | epsilon => "`ε`"
  | empty => "`∅`"
  | union => "`|`"
  | star => "`*`"
  | plus => "`+`"
  | optional => "`?`"
  | opening => "`(`"
  | closing => "`)`"

/-- The symbol of a literal, the name of a class. -/
def value? : TokenKind → Option Char
  | literal a => some a
  | symbolClass name => some name
  | _ => none

/-- The characters a token is written with. -/
def spelling : TokenKind → List Char
  | literal a => Regex.spellLiteral a []
  | symbolClass name => ['\\', name]
  | epsilon => [epsilonSymbol]
  | empty => [emptyLanguageSymbol]
  | union => ['|']
  | star => ['*']
  | plus => ['+']
  | optional => ['?']
  | opening => ['(']
  | closing => [')']

end TokenKind

/-- A unit of a pattern. -/
structure Token where
  kind : TokenKind
  /-- The byte at which the token begins. -/
  position : Nat
deriving DecidableEq, Repr

end RegularLanguages.Pattern
