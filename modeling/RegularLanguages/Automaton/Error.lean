import RegularLanguages.Automaton.State

/-!
# Invalid automata

What parts of an automaton can have wrong with them, as causes; `message` gives the wording.
-/

namespace RegularLanguages

/-- Why parts do not make an automaton. -/
inductive InvalidReason where
  | noStates
  | unknownInitialState (q : State)
  | unknownFinalState (q : State)
  | unknownTransitionState (q : State)
  | unknownSymbol (a : Symbol)
  | epsilonInAlphabet
  /-- An empty move in an automaton of a kind without them. -/
  | unexpectedEpsilon (source : State)
  /-- A second successor in a deterministic automaton. -/
  | nondeterministic (source : State) (a : Symbol)
  /-- A dictionary lists something as a symbol that is not one character. -/
  | notASymbol (text : String)
  /-- A dictionary has a key that is not a state and a symbol. -/
  | malformedKey (key : String)
  /-- A text that holds no dictionary. -/
  | unreadable
deriving DecidableEq, Repr

/-- The wording of a reason. -/
def InvalidReason.message : InvalidReason → String
  | noStates => "the set of states is empty"
  | unknownInitialState q => "initial state `" ++ q ++ "` is not a declared state"
  | unknownFinalState q => "final state `" ++ q ++ "` is not a declared state"
  | unknownTransitionState q => "transition mentions undeclared state `" ++ q ++ "`"
  | unknownSymbol a => "transition symbol `" ++ a.toString ++ "` is not in the alphabet"
  | epsilonInAlphabet => "the epsilon symbol is part of the alphabet"
  | unexpectedEpsilon q =>
    "epsilon transition from `" ++ q ++ "` in an automaton without epsilon moves"
  | nondeterministic q a =>
    "state `" ++ q ++ "` has more than one successor on `" ++ a.toString ++ "`"
  | notASymbol text => malformed ("`" ++ text ++ "` is not a single symbol")
  | malformedKey key => malformed ("`" ++ key ++ "` is not of the form `source,symbol`")
  | unreadable => malformed "the text is no dictionary"
where
  /-- The wording for what is wrong with a written automaton. -/
  malformed (fault : String) : String := "malformed serialized automaton: " ++ fault

/-- A reason together with the kind of automaton that was to be built. -/
structure InvalidAutomaton where
  kind : Kind
  reason : InvalidReason
deriving DecidableEq, Repr

/-- The wording of an error. -/
def InvalidAutomaton.message (e : InvalidAutomaton) : String :=
  "invalid " ++ e.kind.text ++ ": " ++ e.reason.message

end RegularLanguages
