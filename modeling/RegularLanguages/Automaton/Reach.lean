import RegularLanguages.Automaton.Table

/-!
# Reachable states

`StateSet.reach` adds to a set of states whatever successors lead to, round by round: each round
looks only at the states that the round before has added. A round that adds something has looked at
a state with successors for the first time, so as many rounds are enough as there are such states.
-/

namespace RegularLanguages

namespace StateSet

/-- Adds a state to a set and, if it is new there, in front of a list. -/
def addNew : StateSet × List State → State → StateSet × List State
  | (seen, fresh), q => if seen.contains q then (seen, fresh) else (seen.insert q, q :: fresh)

/-- Adds to `seen` what can be reached from `fresh`, in at most the given number of rounds. -/
def reachFrom (next : State → StateSet) :
    (rounds : Nat) → (seen : StateSet) → (fresh : List State) → StateSet
  | 0, seen, _ => seen
  | rounds + 1, seen, fresh =>
    match (fresh.flatMap fun q => (next q).toList).foldl addNew (seen, []) with
    | (seen, []) => seen
    | (seen, fresh) => reachFrom next rounds seen fresh

/-- The least set that includes `start` and the successors of its members, if no more than
`sources` states have successors. -/
def reach (next : State → StateSet) (sources : Nat) (start : StateSet) : StateSet :=
  reachFrom next sources start start.toList

end StateSet

namespace Automaton

variable {T : Type} [TransitionTable T]

/-- The direct successors of each state, over all labels. -/
def adjacency (edges : List Edge) : Std.ExtTreeMap State StateSet :=
  edges.foldl (fun m e => m.insert e.source ((m.getD e.source ∅).insert e.target)) ∅

/-- The states that transitions lead to from the initial state, itself among them. -/
def reachableStates (A : Automaton T) : StateSet :=
  let successors := adjacency A.edges
  StateSet.reach (fun q => successors.getD q ∅) successors.size (.single A.initial)

/-- The automaton with the given states only. -/
def restrict (A : Automaton T) (states : StateSet) : Automaton T where
  states := states
  alphabet := A.alphabet
  transitions := TransitionTable.restrict A.transitions fun q => states.contains q
  initial := A.initial
  finals := A.finals.filter fun q => states.contains q

/-- The automaton without the states that cannot be reached. -/
def trimmed (A : Automaton T) : Automaton T :=
  let reachable := A.reachableStates
  if reachable.size = A.states.size then A else A.restrict reachable

end Automaton

end RegularLanguages
