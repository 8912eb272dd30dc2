import RegularLanguages.Pattern.Token

/-!
# Errors in patterns

What can be wrong with a pattern, as causes; `message` gives the wording. Positions count bytes
from the start of the pattern.
-/

namespace RegularLanguages

namespace Pattern

/-- A fault in the characters of a pattern. -/
inductive LexicalFault where
  | emptyPattern
  | truncatedEscape
  | foreignEscape (c : Char)
  | unknownEscape (c : Char)
  | unknownCharacter (c : Char)
deriving DecidableEq, Repr

/-- A fault in the order of tokens. -/
inductive GrammarFault where
  /-- The pattern ends where an operand has to follow. -/
  | operandExpected
  /-- A union sign stands where an operand has to. -/
  | alternativeMissing
  /-- A closing parenthesis stands where an operand has to. -/
  | strayClosing
  /-- A postfix operator stands where an operand has to. -/
  | strayOperator (kind : TokenKind)
  | nestedTooDeep (limit : Nat)
  | emptyGroup
  | unclosedGroup
  /-- A closing parenthesis that nothing opens. -/
  | unopenedGroup
deriving DecidableEq, Repr

/-- A fault in an expression that is to become an automaton. -/
inductive AssemblyFault where
  | foreignLiteral (a : Symbol) (alphabet : Alphabet)
  | missingOperand
  | unusedFragments
deriving DecidableEq

/-- The wording of a fault in the characters. -/
def LexicalFault.message : LexicalFault → String
  | emptyPattern => "empty pattern"
  | truncatedEscape => "truncated escape sequence"
  | foreignEscape c => "escaped `" ++ c.toString ++ "` is not in the alphabet"
  | unknownEscape c => "unknown escape sequence `\\" ++ c.toString ++ "`"
  | unknownCharacter c =>
    "character `" ++ c.toString ++ "` is neither an operator nor in the alphabet"

/-- The wording of a fault in the order of tokens. -/
def GrammarFault.message : GrammarFault → String
  | operandExpected => "expected an operand"
  | alternativeMissing => "missing operand of `|`"
  | strayClosing => "unbalanced `)` or empty group"
  | strayOperator kind => kind.text ++ " does not follow an operand"
  | nestedTooDeep limit => "groups are nested deeper than " ++ limit.repr ++ " levels"
  | emptyGroup => "empty group"
  | unclosedGroup => "unbalanced `(`"
  | unopenedGroup => "unexpected " ++ TokenKind.closing.text ++ ", unbalanced parentheses"

/-- The wording of a fault in an expression. -/
def AssemblyFault.message : AssemblyFault → String
  | foreignLiteral a alphabet =>
    "literal `" ++ a.toString ++ "` is not in the alphabet " ++ alphabet.text
  | missingOperand => "operand fragment is missing"
  | unusedFragments => "syntax tree left unused fragments"

end Pattern

/-- Why a pattern denotes no automaton. -/
inductive PatternError where
  | lexical (position : Nat) (fault : Pattern.LexicalFault)
  | grammar (position : Nat) (fault : Pattern.GrammarFault)
  | assembly (fault : Pattern.AssemblyFault)
deriving DecidableEq

namespace PatternError

/-- The byte at which the pattern is at fault, if the fault has a place. -/
def position? : PatternError → Option Nat
  | lexical position _ | grammar position _ => some position
  | assembly _ => none

/-- The wording of an error. -/
def message : PatternError → String
  | lexical position fault => "syntax error at position " ++ position.repr ++ ": " ++ fault.message
  | grammar position fault => "parse error at position " ++ position.repr ++ ": " ++ fault.message
  | assembly fault => "could not convert syntax tree: " ++ fault.message

end PatternError

end RegularLanguages
