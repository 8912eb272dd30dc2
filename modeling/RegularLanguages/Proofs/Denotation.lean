import Mathlib.Computability.Language
import RegularLanguages.Regex.Basic

/-!
# The language of an expression

Each operator denotes an operation on languages. One or more repetitions are one word of the
operand and then any number of them, and a pair of parentheses changes nothing.
-/

namespace RegularLanguages.Regex

open scoped Computability

/-- The symbols of the literals, from left to right. -/
def literals : Regex → List Symbol
  | literal a => [a]
  | epsilon | empty => []
  | union l r | concat l r => l.literals ++ r.literals
  | star x | plus x | optional x | group x => x.literals

/-- The words that an expression stands for. -/
def language : Regex → Language Symbol
  | literal a => {[a]}
  | epsilon => 1
  | empty => 0
  | union l r => l.language + r.language
  | concat l r => l.language * r.language
  | star x => x.language∗
  | plus x => x.language * x.language∗
  | optional x => x.language + 1
  | group x => x.language

end RegularLanguages.Regex
