import RegularLanguages.Automaton.Table
import RegularLanguages.Automaton.Naming

/-!
# Deterministic automata

A deterministic automaton reads a word along one path and gets stuck where a successor is missing.
It is complete if none is missing; a complete one is complemented by exchanging final and other
states.
-/

namespace RegularLanguages.DFA

/-- The state that a symbol leads to. -/
def successor? (D : DFA) (q : State) (a : Symbol) : Option State := D.transitions.successor? q a

/-- The state that a word leads to from `q`. -/
def runFrom (D : DFA) : State → Word → Option State
  | q, [] => some q
  | q, a :: w =>
    match D.successor? q a with
    | some p => runFrom D p w
    | none => none

/-- The state that a word leads to. -/
def run (D : DFA) (w : Word) : Option State := D.runFrom D.initial w

/-- Whether a word leads to a final state. -/
def accepts (D : DFA) (w : Word) : Bool :=
  match D.run w with
  | some q => D.isFinal q
  | none => false

/-- Whether every state has a successor on every symbol. -/
def isComplete (D : DFA) : Bool :=
  D.states.toList.all fun q => D.alphabet.toList.all fun a => (D.successor? q a).isSome

/-- The symbols on which a state has no successor. -/
def missingSymbols (D : DFA) (q : State) : List Symbol :=
  D.alphabet.toList.filter fun a => (D.successor? q a).isNone

/-- The transitions of the given states on all symbols, with `sink` where one is missing. -/
def withSink (D : DFA) (states : StateSet) (sink : State) : DeterministicTable :=
  D.transitions.putAll (states.toList.flatMap fun q =>
    (D.missingSymbols q).map fun a => (q, a, sink))

/-- The automaton with all missing transitions leading to a new state, which they never leave. -/
def complete (D : DFA) : DFA :=
  if D.isComplete then D
  else
    let sink := State.fresh D.states "sink"
    let states := D.states.insert sink
    { D with states, transitions := D.withSink states sink }

/-- The automaton of the words over the alphabet that are not accepted. -/
def complement (D : DFA) : DFA :=
  let C := D.complete
  { C with finals := C.states.filter fun q => !C.isFinal q }

/-- A state and a word that leads to it, last symbol first. -/
abbrev Access := State × Word

/-- The successors of the states of a layer, with the words that lead to them. -/
def extensions (D : DFA) (layer : List Access) : List Access :=
  layer.flatMap fun (q, w) => D.alphabet.toList.filterMap fun a =>
    (D.successor? q a).map fun p => (p, a :: w)

/-- The first occurrence of each state that was not seen before. -/
def firstSeen : (seen : StateSet) → List Access → List Access
  | _, [] => []
  | seen, (q, w) :: rest =>
    if seen.contains q then firstSeen seen rest else (q, w) :: firstSeen (seen.insert q) rest

/-- The first word, in length-lexicographic order, that leads from a state of the layer to a final
state. A layer holds the states at one distance from the start with the least words that lead to
them, in ascending order of the words; `seen` are the states up to this layer. -/
def wordFrom? (D : DFA) : (layers : Nat) → (seen : StateSet) → (layer : List Access) → Option Word
  | 0, _, _ => none
  | layers + 1, seen, layer =>
    match layer.find? fun (q, _) => D.isFinal q with
    | some (_, w) => some w.reverse
    | none =>
      let next := firstSeen seen (D.extensions layer)
      if next.isEmpty then none
      else wordFrom? D layers (seen ∪ .ofList (next.map (·.1))) next

/-- The least accepted word, if any is accepted. No state is farther away than there are states. -/
def leastWord? (D : DFA) : Option Word :=
  D.wordFrom? D.states.size (.single D.initial) [(D.initial, [])]

/-- Whether no word is accepted. -/
def isEmptyLanguage (D : DFA) : Bool := D.leastWord?.isNone

end RegularLanguages.DFA
