import RegularLanguages.Automaton.State

/-!
# Refused operations

Why an operation on languages has no result, as causes; `message` gives the wording.
-/

namespace RegularLanguages

/-- What is wrong with the operands of an operation. -/
inductive OperationError where
  /-- The operands have different alphabets. -/
  | incompatible (left right : Alphabet)
  /-- The complement of an automaton that is not deterministic. -/
  | notDeterministic (kind : Kind)
  /-- A mapping says nothing about a symbol of the alphabet. -/
  | noImage (a : Symbol)
  /-- A mapping turns a symbol of the alphabet into the empty move. -/
  | emptyImage (a : Symbol)
  /-- A mapping lists the empty move as a symbol. -/
  | emptySource
  | negativeExponent (n : Int)
deriving DecidableEq

namespace OperationError

/-- The operation that is refused, unless it is one of several. -/
def operation? : OperationError → Option String
  | incompatible _ _ => none
  | notDeterministic _ => some "complement"
  | noImage _ | emptyImage _ => some "homomorphism"
  | emptySource => some "inverse_homomorphism"
  | negativeExponent _ => some "power"

/-- What is wrong, without the name of the operation. -/
def detail : OperationError → String
  | incompatible l r =>
    "incompatible automata: alphabets " ++ l.text ++ " and " ++ r.text ++ " differ"
  | notDeterministic kind => "the " ++ kind.text ++ " operand is not deterministic"
  | noImage a => "symbol `" ++ a.toString ++ "` has no image"
  | emptyImage a =>
    "symbol `" ++ a.toString ++ "` is mapped to `" ++ epsilonSymbol.toString ++ "`"
  | emptySource => "`" ++ epsilonSymbol.toString ++ "` cannot be used as a symbol"
  | negativeExponent n => "exponent " ++ toString n ++ " is negative"

/-- The wording of an error. -/
def message (e : OperationError) : String :=
  match e.operation? with
  | none => e.detail
  | some operation => "invalid operation `" ++ operation ++ "`: " ++ e.detail

end OperationError

/-- Operands of a binary operation have to share their alphabet. -/
def sameAlphabet (left right : Alphabet) : Except OperationError Unit :=
  if left = right then .ok () else .error (.incompatible left right)

end RegularLanguages
