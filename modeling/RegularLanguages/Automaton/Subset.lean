import RegularLanguages.Automaton.Search
import RegularLanguages.Automaton.Nondeterministic

/-!
# Subset constructions

The sets of states a nondeterministic automaton can be in are the states of a deterministic one.
Only non-empty sets that some word leads to are built, so the result is not always complete. The
direct construction for automata with empty moves works with closed sets.
-/

namespace RegularLanguages

/-- A set of states as the node it is of a subset construction; the empty set is none. -/
def StateSet.nodes (states : StateSet) : List StateSet :=
  if states.isEmpty then [] else [states]

namespace NFA

/-- The subset construction, reporting to a meter. -/
def determinizeWith {m : Type → Type} [Monad m] (meter : Meter m) (N : NFA) : m DFA := do
  let first := StateSet.single N.initial
  let found ← Search.run meter N.alphabet.toList (fun s a => (N.step s a).nodes)
    (Nat.pow 2 N.states.size) first
  return found.toDFA N.alphabet State.ofSet first N.anyFinal

/-- The subset construction. -/
def determinize (N : NFA) : DFA := Id.run (N.determinizeWith Meter.free)

end NFA

namespace EpsilonNFA

/-- The direct subset construction, reporting to a meter. -/
def determinizeWith {m : Type → Type} [Monad m] (meter : Meter m) (E : EpsilonNFA) : m DFA := do
  let first := E.closure (.single E.initial)
  let found ← Search.run meter E.alphabet.toList (fun s a => (E.closedStep s a).nodes)
    (Nat.pow 2 E.states.size) first
  return found.toDFA E.alphabet State.ofSet first E.anyFinal

/-- The direct subset construction. -/
def determinize (E : EpsilonNFA) : DFA := Id.run (E.determinizeWith Meter.free)

end EpsilonNFA

end RegularLanguages
