import RegularLanguages.Automaton.Table

/-!
# Automata from transitions

States and alphabet that are not declared are those that the transitions, the initial state and
the final states mention. A declared set of states may be empty, and then no automaton comes out.
-/

namespace RegularLanguages

/-- What is known of an automaton that is to be built. -/
structure AutomatonBuilder where
  states : Option (List State)
  alphabet : Option Alphabet
  transitions : List Edge
  finals : List State

namespace AutomatonBuilder

/-- The states that are declared, or else those that are mentioned. -/
def allStates (b : AutomatonBuilder) (initial : State) : List State :=
  b.states.getD (b.transitions.flatMap (fun e => [e.source, e.target]) ++ b.finals ++ [initial])

/-- The alphabet that is declared, or else the symbols of the transitions. -/
def fullAlphabet (b : AutomatonBuilder) : Alphabet :=
  b.alphabet.getD (.ofList (b.transitions.filterMap fun e => e.label.symbol?))

/-- The automaton with the given initial state, checked. -/
def build {T : Type} [TransitionTable T] (b : AutomatonBuilder) (initial : State) :
    Except InvalidAutomaton (Automaton T) :=
  Automaton.ofParts (b.allStates initial) b.fullAlphabet b.transitions initial b.finals

end AutomatonBuilder

end RegularLanguages
