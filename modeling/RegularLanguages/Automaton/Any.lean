import RegularLanguages.Automaton.Subset

/-!
# Conversions between kinds

Every automaton is turned into one of each kind that accepts the same words. Where nothing has to
be chosen, the parts stay what they are: a deterministic automaton is read as a nondeterministic
one, and that as one with empty moves, and back if the transitions allow it.
-/

namespace RegularLanguages

namespace DFA

/-- The same automaton, read as a nondeterministic one. -/
def toNFA (D : DFA) : NFA where
  states := D.states
  alphabet := D.alphabet
  transitions := .ofTriples D.transitions.triples
  initial := D.initial
  finals := D.finals

/-- The same automaton, read as one with empty moves. -/
def toEpsilonNFA (D : DFA) : EpsilonNFA where
  states := D.states
  alphabet := D.alphabet
  transitions := .ofTriples (D.transitions.triples.map fun (p, a, q) => (p, .symbol a, q))
  initial := D.initial
  finals := D.finals

end DFA

namespace NFA

/-- The same automaton, read as one with empty moves. -/
def toEpsilonNFA (N : NFA) : EpsilonNFA where
  states := N.states
  alphabet := N.alphabet
  transitions := .ofTriples (N.transitions.triples.map fun (p, a, q) => (p, .symbol a, q))
  initial := N.initial
  finals := N.finals

/-- The table of the transitions, if no state has two successors on a symbol. -/
def singleSuccessors? : (table : DeterministicTable) → List (State × Symbol × State) →
    Option DeterministicTable
  | table, [] => some table
  | table, (p, a, q) :: rest =>
    match table.successor? p a with
    | none => singleSuccessors? (table.put p a q) rest
    | some _ => none

/-- The same automaton, read as a deterministic one if it is deterministic. -/
def asDeterministic? (N : NFA) : Option DFA :=
  (singleSuccessors? ⟨.empty⟩ N.transitions.triples).map fun table =>
    ⟨N.states, N.alphabet, table, N.initial, N.finals⟩

end NFA

namespace EpsilonNFA

/-- The transitions that lead from a state over empty moves and then a symbol. -/
def triplesFrom (E : EpsilonNFA) (q : State) : List (State × Symbol × State) :=
  let closed := E.closure (.single q)
  E.alphabet.toList.flatMap fun a => (E.step closed a).toList.map fun p => (q, a, p)

/-- An automaton without empty moves for the same words. A symbol leads where it leads after empty
moves; a state is final if empty moves lead from it to a final state. -/
def toNFA (E : EpsilonNFA) : NFA where
  states := E.states
  alphabet := E.alphabet
  transitions := .ofTriples (E.states.toList.flatMap E.triplesFrom)
  initial := E.initial
  finals := E.states.filter fun q => E.anyFinal (E.closure (.single q))

/-- A deterministic automaton for the same words, by way of one without empty moves. -/
def toDFA (E : EpsilonNFA) : DFA := E.toNFA.determinize

/-- The same automaton, read as a deterministic one if it is deterministic. -/
def asDeterministic? (E : EpsilonNFA) : Option DFA :=
  if E.hasEpsilonMoves then none else E.toNFA.asDeterministic?

end EpsilonNFA

/-- A finite automaton of any kind. -/
inductive AnyAutomaton where
  | dfa (D : DFA)
  | nfa (N : NFA)
  | epsilonNFA (E : EpsilonNFA)
deriving DecidableEq

instance : Coe DFA AnyAutomaton := ⟨.dfa⟩
instance : Coe NFA AnyAutomaton := ⟨.nfa⟩
instance : Coe EpsilonNFA AnyAutomaton := ⟨.epsilonNFA⟩

namespace AnyAutomaton

/-- Which kind the automaton is of. -/
def kind : AnyAutomaton → Kind
  | dfa _ => .dfa
  | nfa _ => .nfa
  | epsilonNFA _ => .epsilonNFA

/-- The declared states. -/
def states : AnyAutomaton → StateSet
  | dfa A | nfa A | epsilonNFA A => A.states

/-- The alphabet. -/
def alphabet : AnyAutomaton → Alphabet
  | dfa A | nfa A | epsilonNFA A => A.alphabet

/-- All transitions in ascending order. -/
def edges : AnyAutomaton → List Edge
  | dfa A | nfa A | epsilonNFA A => A.edges

/-- The states that a label leads to. -/
def targets : AnyAutomaton → State → Label → List State
  | dfa D, q, .symbol a => (D.successor? q a).toList
  | nfa N, q, .symbol a => (N.successors q a).toList
  | dfa _, _, .epsilon | nfa _, _, .epsilon => []
  | epsilonNFA E, q, l => (E.successors q l).toList

/-- The initial state. -/
def initial : AnyAutomaton → State
  | dfa A | nfa A | epsilonNFA A => A.initial

/-- The final states. -/
def finals : AnyAutomaton → StateSet
  | dfa A | nfa A | epsilonNFA A => A.finals

/-- The number of states. -/
def size (A : AnyAutomaton) : Nat := A.states.size

/-- Whether a state is final. -/
def isFinal (A : AnyAutomaton) (q : State) : Bool := A.finals.contains q

/-- Whether a word is accepted. -/
def accepts : AnyAutomaton → Word → Bool
  | dfa D => D.accepts
  | nfa N => N.accepts
  | epsilonNFA E => E.accepts

/-- An automaton with empty moves for the same words. -/
def toEpsilonNFA : AnyAutomaton → EpsilonNFA
  | dfa D => D.toEpsilonNFA
  | nfa N => N.toEpsilonNFA
  | epsilonNFA E => E

/-- An automaton without empty moves for the same words. -/
def toNFA : AnyAutomaton → NFA
  | dfa D => D.toNFA
  | nfa N => N
  | epsilonNFA E => E.toNFA

/-- A deterministic automaton for the same words. -/
def toDFA : AnyAutomaton → DFA
  | dfa D => D
  | nfa N => N.determinize
  | epsilonNFA E => E.toDFA

/-- The same automaton, read as a deterministic one if it is deterministic. -/
def asDeterministic? : AnyAutomaton → Option DFA
  | dfa D => some D
  | nfa N => N.asDeterministic?
  | epsilonNFA E => E.asDeterministic?

/-- An automaton of the given kind for the same words; an automaton of that kind stays as it is. -/
def toKind (A : AnyAutomaton) (kind : Kind) : AnyAutomaton :=
  match kind with
  | .dfa => A.toDFA
  | .nfa => A.toNFA
  | .epsilonNFA => A.toEpsilonNFA

/-- The automaton without the states that cannot be reached. -/
def trimmed : AnyAutomaton → AnyAutomaton
  | dfa A => dfa A.trimmed
  | nfa A => nfa A.trimmed
  | epsilonNFA A => epsilonNFA A.trimmed

/-- The same automaton over a larger alphabet. -/
def extendAlphabet (A : AnyAutomaton) (alphabet : Alphabet) : AnyAutomaton :=
  match A with
  | dfa A => dfa (A.extendAlphabet alphabet)
  | nfa A => nfa (A.extendAlphabet alphabet)
  | epsilonNFA A => epsilonNFA (A.extendAlphabet alphabet)

end AnyAutomaton

end RegularLanguages
