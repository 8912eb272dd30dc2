import RegularLanguages.Alphabet

/-!
# Regular expressions

The syntax tree of a regular expression and its written form. Unions and concatenations are
written in parentheses, so every tree has a text that says which operands belong together.
-/

namespace RegularLanguages

/-- The characters with a meaning of their own; behind a backslash they stand for themselves. -/
def metacharacters : List Char := ['|', '*', '+', '?', '(', ')', '\\']

/-- The character that stands for the language without words. -/
def emptyLanguageSymbol : Symbol := '∅'

/-- A regular expression. -/
inductive Regex where
  | literal (a : Symbol)
  /-- The language of the empty word alone. -/
  | epsilon
  /-- The language without words. -/
  | empty
  | union (left right : Regex)
  | concat (left right : Regex)
  | star (inner : Regex)
  | plus (inner : Regex)
  | optional (inner : Regex)
  /-- An expression in parentheses. -/
  | group (inner : Regex)
deriving DecidableEq, Repr, Inhabited

namespace Regex

/-- Whether the expression is a leaf. -/
def isTerminal : Regex → Bool
  | literal _ | epsilon | empty => true
  | _ => false

/-- The direct parts, from left to right. -/
def children : Regex → List Regex
  | literal _ | epsilon | empty => []
  | union l r | concat l r => [l, r]
  | star x | plus x | optional x | group x => [x]

/-- The number of nodes. -/
def size : Regex → Nat
  | literal _ | epsilon | empty => 1
  | union l r | concat l r => l.size + r.size + 1
  | star x | plus x | optional x | group x => x.size + 1

/-- A literal as it is written, with a backslash if it would mean something else. -/
def spellLiteral (a : Symbol) (rest : List Char) : List Char :=
  if a ∈ metacharacters then '\\' :: a :: rest else a :: rest

/-- The written form of an expression, followed by `rest`. -/
def spell : Regex → (rest : List Char) → List Char
  | literal a, rest => spellLiteral a rest
  | epsilon, rest => epsilonSymbol :: rest
  | empty, rest => emptyLanguageSymbol :: rest
  | union l r, rest => '(' :: l.spell ('|' :: r.spell (')' :: rest))
  | concat l r, rest => '(' :: l.spell (r.spell (')' :: rest))
  | star x, rest => x.spell ('*' :: rest)
  | plus x, rest => x.spell ('+' :: rest)
  | optional x, rest => x.spell ('?' :: rest)
  | group x, rest => '(' :: x.spell (')' :: rest)

/-- The written form of an expression. -/
def text (x : Regex) : String := String.ofList (x.spell [])

/-- The union of the given symbols, the first of them innermost; the empty language for none. -/
def ofSymbols : List Symbol → Regex
  | [] => empty
  | a :: symbols => symbols.foldl (fun x b => union x (literal b)) (literal a)

end Regex

end RegularLanguages
