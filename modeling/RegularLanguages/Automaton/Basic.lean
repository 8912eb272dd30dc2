import RegularLanguages.Word
import RegularLanguages.Automaton.Error

/-!
# Finite automata

An automaton has states, an alphabet, transitions, an initial state and final states. The table
that holds the transitions decides the kind: what it can represent, and so which transitions are
refused. `Automaton.ofParts` checks everything an automaton has to satisfy; operations that start
from automata put the parts together directly.
-/

namespace RegularLanguages

/-- A storage of transitions that belongs to one kind of automaton. -/
class TransitionTable (T : Type) where
  /-- The kind of automaton that stores its transitions like this. -/
  kind : Kind
  /-- The table without transitions. -/
  empty : T
  /-- Adds a transition, unless automata of this kind cannot have it. -/
  insert : T → Edge → Except InvalidReason T
  /-- All transitions in ascending order. -/
  edges : T → List Edge
  /-- The transitions both ends of which are kept. -/
  restrict : T → (keep : State → Bool) → T
  /-- The transitions between renamed states; the renaming has to be injective. -/
  rename : T → (State → State) → T

/-- A finite automaton whose transitions are stored in a table of type `T`. -/
structure Automaton (T : Type) where
  states : StateSet
  alphabet : Alphabet
  transitions : T
  initial : State
  finals : StateSet
deriving DecidableEq

namespace Automaton

variable {T : Type}

/-- The number of states. -/
def size (A : Automaton T) : Nat := A.states.size

/-- Whether a state is final. -/
def isFinal (A : Automaton T) (q : State) : Bool := A.finals.contains q

/-- Whether one of the states is final. -/
def anyFinal (A : Automaton T) (states : StateSet) : Bool := states.toList.any A.isFinal

variable [TransitionTable T]

/-- The kind of the automaton. -/
def kind (_ : Automaton T) : Kind := TransitionTable.kind T

/-- All transitions in ascending order. -/
def edges (A : Automaton T) : List Edge := TransitionTable.edges A.transitions

/-- The first of the given final states that is not declared. -/
def undeclared? (states : StateSet) (mentioned : List State) : Option State :=
  mentioned.find? fun q => !states.contains q

/-- Why a transition cannot belong to an automaton with the given states and alphabet. -/
def edgeFault? (states : StateSet) (alphabet : Alphabet) (edge : Edge) : Option InvalidReason :=
  match undeclared? states [edge.source, edge.target] with
  | some q => some (.unknownTransitionState q)
  | none =>
    match edge.label with
    | .epsilon => none
    | .symbol a => if alphabet.contains a then none else some (.unknownSymbol a)

/-- Adds the transitions to a table one by one, up to the first that is at fault. -/
def insertAll (states : StateSet) (alphabet : Alphabet) :
    (table : T) → List Edge → Except InvalidReason T
  | table, [] => .ok table
  | table, edge :: rest =>
    match edgeFault? states alphabet edge with
    | some reason => .error reason
    | none =>
      match TransitionTable.insert table edge with
      | .error reason => .error reason
      | .ok table => insertAll states alphabet table rest

/-- The automaton with the given parts, or the first thing that is wrong with them. Of several
faults the order is: no states, the empty move as a symbol, the initial state, the final states,
and then the transitions one after another. -/
def checked (states : StateSet) (alphabet : Alphabet) (transitions : List Edge) (initial : State)
    (finals : List State) : Except InvalidReason (Automaton T) :=
  if states.isEmpty then .error .noStates
  else if alphabet.contains epsilonSymbol then .error .epsilonInAlphabet
  else if !states.contains initial then .error (.unknownInitialState initial)
  else
    match undeclared? states finals with
    | some q => .error (.unknownFinalState q)
    | none =>
      match insertAll states alphabet (TransitionTable.empty : T) transitions with
      | .error reason => .error reason
      | .ok table => .ok ⟨states, alphabet, table, initial, .ofList finals⟩

/-- The automaton with the given parts, checked. -/
def ofParts (states : List State) (alphabet : Alphabet) (transitions : List Edge) (initial : State)
    (finals : List State) : Except InvalidAutomaton (Automaton T) :=
  match checked (.ofList states) alphabet transitions initial finals with
  | .error reason => .error ⟨TransitionTable.kind T, reason⟩
  | .ok A => .ok A

/-- The same automaton with other names for its states; the renaming has to be injective. -/
def rename (A : Automaton T) (f : State → State) : Automaton T where
  states := .image f A.states
  alphabet := A.alphabet
  transitions := TransitionTable.rename A.transitions f
  initial := f A.initial
  finals := .image f A.finals

/-- The same automaton over a larger alphabet; nothing is read on the symbols that are added. -/
def extendAlphabet (A : Automaton T) (alphabet : Alphabet) : Automaton T :=
  { A with alphabet := A.alphabet ∪ alphabet }

end Automaton

end RegularLanguages
