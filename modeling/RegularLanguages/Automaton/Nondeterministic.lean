import RegularLanguages.Automaton.Reach

/-!
# Nondeterministic automata

A nondeterministic automaton is in a set of states at once: a symbol leads to all successors of
all of them. With empty moves, the set is closed under them before the first symbol and after
every symbol.
-/

namespace RegularLanguages

namespace NFA

/-- The states that a symbol leads to. -/
def successors (N : NFA) (q : State) (a : Symbol) : StateSet := N.transitions.successors q a

/-- The states that a symbol leads to from a set of states. -/
def step (N : NFA) (states : StateSet) (a : Symbol) : StateSet := N.transitions.step states a

/-- The states that a word leads to from a set of states. -/
def runFrom (N : NFA) : StateSet → Word → StateSet
  | states, [] => states
  | states, a :: w => runFrom N (N.step states a) w

/-- The states that a word leads to. -/
def run (N : NFA) (w : Word) : StateSet := N.runFrom (.single N.initial) w

/-- Whether a word leads to a final state, among others. -/
def accepts (N : NFA) (w : Word) : Bool := N.anyFinal (N.run w)

end NFA

namespace EpsilonNFA

/-- The states that a label leads to. -/
def successors (E : EpsilonNFA) (q : State) (l : Label) : StateSet := E.transitions.successors q l

/-- The states that a symbol leads to from a set of states, without any empty move. -/
def step (E : EpsilonNFA) (states : StateSet) (a : Symbol) : StateSet :=
  E.transitions.step states (.symbol a)

/-- The states that empty moves lead to from a set of states, and the set itself. -/
def closure (E : EpsilonNFA) (states : StateSet) : StateSet :=
  StateSet.reach (fun q => E.successors q .epsilon) E.transitions.rows.rows.size states

/-- The states that a symbol leads to from a closed set of states, closed again. -/
def closedStep (E : EpsilonNFA) (states : StateSet) (a : Symbol) : StateSet :=
  E.closure (E.step states a)

/-- The states that a word leads to from a closed set of states. -/
def runFrom (E : EpsilonNFA) : StateSet → Word → StateSet
  | states, [] => states
  | states, a :: w => runFrom E (E.closedStep states a) w

/-- The states that a word leads to. -/
def run (E : EpsilonNFA) (w : Word) : StateSet := E.runFrom (E.closure (.single E.initial)) w

/-- Whether a word leads to a final state, among others. -/
def accepts (E : EpsilonNFA) (w : Word) : Bool := E.anyFinal (E.run w)

/-- Whether there is an empty move. -/
def hasEpsilonMoves (E : EpsilonNFA) : Bool := E.edges.any fun e => e.label.isEpsilon

end EpsilonNFA

end RegularLanguages
