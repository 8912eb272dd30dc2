import RegularLanguages.Automaton.Table
import RegularLanguages.Pattern.Error

/-!
# From expressions to automata

An expression is read as a program in postfix order for a machine with a stack of fragments. A
fragment is a part of the automaton with one state to enter and any number of states to leave; its
states are numbered consecutively, and the fragments on the stack cover all states numbered so far.
So a fragment on top of the stack is copied by copying all states from its first one on, which is
what one or more repetitions need.
-/

namespace RegularLanguages

/-- An operation of the machine. -/
inductive FragmentOperation where
  | literal (a : Symbol)
  | epsilon
  | empty
  | union
  | concat
  | star
  | plus
  | optional
deriving DecidableEq, Repr

/-- The operations of an expression, operands first and from left to right, followed by `rest`. -/
def Regex.program : Regex → (rest : List FragmentOperation) → List FragmentOperation
  | literal a, rest => .literal a :: rest
  | epsilon, rest => .epsilon :: rest
  | empty, rest => .empty :: rest
  | union l r, rest => l.program (r.program (.union :: rest))
  | concat l r, rest => l.program (r.program (.concat :: rest))
  | star x, rest => x.program (.star :: rest)
  | plus x, rest => x.program (.plus :: rest)
  | optional x, rest => x.program (.optional :: rest)
  | group x, rest => x.program rest

/-- A transition between numbered states. -/
structure NumberedEdge where
  source : Nat
  label : Label
  target : Nat
deriving DecidableEq, Repr

/-- The states numbered so far and their transitions, last one first. -/
structure Arena where
  size : Nat
  edges : List NumberedEdge
deriving DecidableEq, Repr

/-- A part of the automaton: its least state, the state to enter and the states to leave. -/
structure Fragment where
  first : Nat
  start : Nat
  finals : List Nat
deriving DecidableEq, Repr

namespace Arena

/-- No states. -/
def empty : Arena := ⟨0, []⟩

/-- Adds a state, which gets the number `size`. -/
def addState (arena : Arena) : Arena := { arena with size := arena.size + 1 }

/-- Adds a transition. -/
def link (arena : Arena) (p : Nat) (l : Label) (q : Nat) : Arena :=
  { arena with edges := ⟨p, l, q⟩ :: arena.edges }

/-- Adds an empty move from each of several states. -/
def moves (arena : Arena) (sources : List Nat) (target : Nat) : Arena :=
  sources.foldl (fun arena p => arena.link p .epsilon target) arena

/-- Copies all states from `first` on with their transitions. -/
def copyFrom (arena : Arena) (first : Nat) : Arena :=
  let offset := arena.size - first
  let copied := (arena.edges.filter fun e => first ≤ e.source).map fun e =>
    ⟨e.source + offset, e.label, e.target + offset⟩
  ⟨arena.size + offset, copied ++ arena.edges⟩

/-- A state that reads one symbol and a state that is reached by it. -/
def literal (arena : Arena) (a : Symbol) : Arena × Fragment :=
  let n := arena.size
  (arena.addState.addState.link n (.symbol a) (n + 1), ⟨n, n, [n + 1]⟩)

/-- One state, to enter and to leave. -/
def epsilon (arena : Arena) : Arena × Fragment :=
  (arena.addState, ⟨arena.size, arena.size, [arena.size]⟩)

/-- One state that is never left. -/
def nothing (arena : Arena) : Arena × Fragment := (arena.addState, ⟨arena.size, arena.size, []⟩)

/-- One fragment after another. -/
def concat (arena : Arena) (l r : Fragment) : Arena × Fragment :=
  (arena.moves l.finals r.start, ⟨l.first, l.start, r.finals⟩)

/-- One fragment or another, entered by a new state. -/
def union (arena : Arena) (l r : Fragment) : Arena × Fragment :=
  let n := arena.size
  ((arena.addState.link n .epsilon l.start).link n .epsilon r.start,
    ⟨l.first, n, l.finals ++ r.finals⟩)

/-- A fragment any number of times, between two new states. -/
def star (arena : Arena) (x : Fragment) : Arena × Fragment :=
  let n := arena.size
  let arena := (arena.addState.addState.link n .epsilon x.start).link n .epsilon (n + 1)
  ((arena.moves x.finals x.start).moves x.finals (n + 1), ⟨x.first, n, [n + 1]⟩)

/-- A copy of the fragment that ends the numbered states. -/
def duplicate (arena : Arena) (x : Fragment) : Arena × Fragment :=
  let offset := arena.size - x.first
  (arena.copyFrom x.first, ⟨arena.size, x.start + offset, x.finals.map (· + offset)⟩)

/-- A fragment once, and then a copy of it any number of times. -/
def plus (arena : Arena) (x : Fragment) : Arena × Fragment :=
  let (arena, copy) := arena.duplicate x
  let (arena, repeated) := arena.star copy
  arena.concat x repeated

/-- A fragment or nothing. -/
def optional (arena : Arena) (x : Fragment) : Arena × Fragment :=
  let (arena, nothing) := arena.epsilon
  arena.union x nothing

end Arena

/-- What the machine has made so far: the states, and the fragments whose use is still to come. -/
structure Assembly where
  arena : Arena
  /-- The fragments, last one first. -/
  fragments : List Fragment
deriving DecidableEq, Repr

namespace Assembly

/-- Nothing has been made. -/
def start : Assembly := ⟨.empty, []⟩

/-- Puts a fragment on the stack. -/
def push (fragments : List Fragment) (made : Arena × Fragment) : Assembly :=
  ⟨made.1, made.2 :: fragments⟩

/-- Carries out an operation with one operand. -/
def unary (s : Assembly) (operation : Arena → Fragment → Arena × Fragment) :
    Except Pattern.AssemblyFault Assembly :=
  match s.fragments with
  | x :: rest => .ok (push rest (operation s.arena x))
  | [] => .error .missingOperand

/-- Carries out an operation with two operands. -/
def binary (s : Assembly) (operation : Arena → Fragment → Fragment → Arena × Fragment) :
    Except Pattern.AssemblyFault Assembly :=
  match s.fragments with
  | r :: l :: rest => .ok (push rest (operation s.arena l r))
  | _ => .error .missingOperand

/-- Carries out one operation. -/
def step (alphabet : Alphabet) (s : Assembly) :
    FragmentOperation → Except Pattern.AssemblyFault Assembly
  | .literal a =>
    if alphabet.contains a then .ok (push s.fragments (s.arena.literal a))
    else .error (.foreignLiteral a alphabet)
  | .epsilon => .ok (push s.fragments s.arena.epsilon)
  | .empty => .ok (push s.fragments s.arena.nothing)
  | .union => s.binary Arena.union
  | .concat => s.binary Arena.concat
  | .star => s.unary Arena.star
  | .plus => s.unary Arena.plus
  | .optional => s.unary Arena.optional

/-- Carries out a program. -/
def run (alphabet : Alphabet) : Assembly → List FragmentOperation →
    Except Pattern.AssemblyFault Assembly
  | s, [] => .ok s
  | s, operation :: rest =>
    match s.step alphabet operation with
    | .error fault => .error fault
    | .ok s => run alphabet s rest

/-- The name of a numbered state. -/
def stateName (n : Nat) : State := "q" ++ n.repr

/-- The automaton of the only fragment that is left. -/
def finish (alphabet : Alphabet) (s : Assembly) : Except Pattern.AssemblyFault EpsilonNFA :=
  match s.fragments with
  | [] => .error .missingOperand
  | _ :: _ :: _ => .error .unusedFragments
  | [x] => .ok {
      states := .ofList ((List.range s.arena.size).map stateName)
      alphabet := alphabet
      transitions := .ofTriples (s.arena.edges.map fun e =>
        (stateName e.source, e.label, stateName e.target))
      initial := stateName x.start
      finals := .ofList (x.finals.map stateName) }

end Assembly

/-- The automaton of an expression over an alphabet, which has to have all its literals. -/
def Regex.toAutomaton (x : Regex) (alphabet : Alphabet) : Except PatternError EpsilonNFA :=
  match Assembly.start.run alphabet (x.program []) with
  | .error fault => .error (.assembly fault)
  | .ok s =>
    match s.finish alphabet with
    | .error fault => .error (.assembly fault)
    | .ok E => .ok E

end RegularLanguages
