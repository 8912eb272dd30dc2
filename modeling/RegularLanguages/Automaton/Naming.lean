import RegularLanguages.Automaton.State

/-!
# Names of composite states

Constructions name their states after the states they are made of. Commas separate the parts of a
composite name, so commas and backslashes inside a part are escaped by a backslash, and different
parts give different names.
-/

namespace RegularLanguages.State

/-- A name as a part of a composite name, character by character. -/
def escapedChars : List Char → List Char
  | [] => []
  | c :: rest => if c == ',' || c == '\\' then '\\' :: c :: escapedChars rest
    else c :: escapedChars rest

/-- A name as a part of a composite name. -/
def escaped (q : State) : String := String.ofList (escapedChars q.toList)

/-- The name of a set of states: its members in ascending order between braces. -/
def ofSet (states : StateSet) : State :=
  "\x7b" ++ ",".intercalate (states.toList.map escaped) ++ "\x7d"

/-- The name of a pair of states. -/
def ofPair (p q : State) : State := "(" ++ escaped p ++ "," ++ escaped q ++ ")"

/-- The `n`-th name with a given beginning: the beginning itself, then with `1`, `2` and so on. -/
def numbered (base : String) : (n : Nat) → State
  | 0 => base
  | n + 1 => base ++ (n + 1).repr

/-- The first name with a given beginning that is not taken. Among one name more than there are
taken ones, there is one. -/
def fresh (taken : StateSet) (base : String) : State :=
  match (List.range (taken.size + 1)).find? fun n => !taken.contains (numbered base n) with
  | some n => numbered base n
  | none => base

end RegularLanguages.State
