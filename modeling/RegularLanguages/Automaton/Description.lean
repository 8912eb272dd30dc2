import RegularLanguages.Automaton.Any
import RegularLanguages.Text.Quoted
import RegularLanguages.Text.Grid

/-!
# Automata for the eye

A description names all parts of an automaton on one line. A diagram is a boxed table with a row
for each state and a column for each label, in which the initial state is marked by an arrow and
final states by a star.
-/

namespace RegularLanguages

/-- The symbols of an alphabet as a described value. -/
def Alphabet.description (alphabet : Alphabet) : String :=
  "Alphabet(" ++ Text.braced (alphabet.toList.map Text.quotedChar) ++ ")"

/-- A set of states as a described value. -/
def StateSet.description (states : StateSet) : String :=
  Text.braced (states.toList.map Text.quotedString)

/-- A transition as a text. -/
def Edge.text (e : Edge) : String := e.source ++ " -" ++ e.label.text ++ "-> " ++ e.target

namespace AnyAutomaton

/-- All parts of an automaton on one line. -/
def description (A : AnyAutomaton) : String :=
  Text.record A.kind.text
    [("states", A.states.description), ("alphabet", A.alphabet.description),
      ("initial", Text.quotedString A.initial), ("finals", A.finals.description),
      ("transitions", Text.bracketed (A.edges.map fun e => Text.quotedString e.text))]

/-- The labels that have a column: the empty move if it is used, and then all symbols. -/
def columns (A : AnyAutomaton) : List Label :=
  (if A.edges.any fun e => e.label.isEpsilon then [.epsilon] else [])
    ++ A.alphabet.toList.map .symbol

/-- The targets of a state on a label, or a dash if there are none. -/
def cell (A : AnyAutomaton) (q : State) (l : Label) : String :=
  match A.targets q l with
  | [] => "-"
  | targets => ",".intercalate targets

/-- A state with its marks. -/
def markedName (A : AnyAutomaton) (q : State) : String :=
  (if q = A.initial then "→" else "") ++ (if A.isFinal q then "*" else "") ++ q

/-- The boxed table of the transitions. -/
def diagram (A : AnyAutomaton) : String :=
  let columns := A.columns
  Text.grid (A.kind.text :: columns.map Label.text)
    (A.states.toList.map fun q => A.markedName q :: columns.map (A.cell q))

end AnyAutomaton

end RegularLanguages
