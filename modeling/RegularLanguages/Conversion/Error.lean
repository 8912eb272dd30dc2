import RegularLanguages.Pattern.Error
import RegularLanguages.Operations.Error
import RegularLanguages.Text.Duration
import RegularLanguages.Word

/-!
# Failed conversions

Why a conversion has no result, as causes; `message` gives the wording.
-/

namespace RegularLanguages

/-- Why a conversion was stopped or its result rejected. -/
inductive ConversionError where
  | timeout (operation : String) (elapsed limit : Duration)
  | memory (operation : String) (states maxStates : Nat)
  /-- Source and result disagree on a word. -/
  | notEquivalent (operation : String) (witness : Word)
deriving DecidableEq, Repr

namespace ConversionError

/-- The conversion that failed. -/
def operation : ConversionError → String
  | timeout operation _ _ | memory operation _ _ | notEquivalent operation _ => operation

/-- The wording of an error. -/
def message : ConversionError → String
  | timeout operation elapsed limit =>
    "conversion `" ++ operation ++ "` timed out after " ++ elapsed.text ++ " (budget " ++ limit.text
      ++ ")"
  | memory operation states maxStates =>
    "conversion `" ++ operation ++ "` needs " ++ states.repr ++ " states, the limit is "
      ++ maxStates.repr
  | notEquivalent operation witness =>
    "conversion `" ++ operation ++ "` changed the language, witness `" ++ witness.text ++ "`"

end ConversionError

/-- Why a request has no result. -/
inductive RequestError where
  | pattern (e : PatternError)
  | operation (e : OperationError)
  | conversion (e : ConversionError)
deriving DecidableEq

/-- The wording of an error. -/
def RequestError.message : RequestError → String
  | pattern e => e.message
  | operation e => e.message
  | conversion e => e.message

end RegularLanguages
