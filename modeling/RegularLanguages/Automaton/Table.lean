import RegularLanguages.Automaton.Basic
import Std.Data.ExtTreeMap

/-!
# Tables of transitions

All three kinds keep a row for each source, in which labels lead to targets. In a deterministic
table a label leads to one state, in the others to a set of states, and only the labels of the
last kind include the empty move. Restricting a deterministic table keeps the rows of all sources
that are kept, even if they become empty; the other tables never hold an empty row.
-/

namespace RegularLanguages

/-- For each source, what the labels lead to. -/
structure Rows (L V : Type) [Ord L] where
  rows : Std.ExtTreeMap State (Std.ExtTreeMap L V)

namespace Rows

variable {L V : Type} [Ord L] [Std.TransOrd L] [Std.LawfulEqOrd L]

instance [DecidableEq V] : DecidableEq (Rows L V) := fun r s =>
  match decEq r.rows s.rows with
  | .isTrue h => .isTrue (by cases r; cases s; exact congrArg mk h)
  | .isFalse h => .isFalse fun e => h (congrArg rows e)

/-- No rows. -/
def empty : Rows L V := ⟨∅⟩

/-- What a label leads to from a source. -/
def get? (r : Rows L V) (q : State) (l : L) : Option V :=
  match r.rows[q]? with
  | some row => row[l]?
  | none => none

/-- Lets a label lead to `v` from a source. -/
def set (r : Rows L V) (q : State) (l : L) (v : V) : Rows L V :=
  ⟨r.rows.insert q ((r.rows.getD q ∅).insert l v)⟩

/-- All entries, in ascending order of sources and labels. -/
def entries (r : Rows L V) : List (State × L × V) :=
  r.rows.toList.flatMap fun (q, row) => row.toList.map fun (l, v) => (q, l, v)

end Rows

/-- The transitions of a deterministic automaton. -/
structure DeterministicTable where
  rows : Rows Symbol State
deriving DecidableEq

namespace DeterministicTable

/-- The state that a symbol leads to. -/
def successor? (t : DeterministicTable) (q : State) (a : Symbol) : Option State := t.rows.get? q a

/-- Lets a symbol lead to a state, whatever it led to before. -/
def put (t : DeterministicTable) (p : State) (a : Symbol) (q : State) : DeterministicTable :=
  ⟨t.rows.set p a q⟩

/-- Puts several transitions into the table, of which a later one replaces an earlier one. -/
def putAll (t : DeterministicTable) (triples : List (State × Symbol × State)) :
    DeterministicTable :=
  triples.foldl (fun t (p, a, q) => t.put p a q) t

/-- The table of the given transitions, of which a later one replaces an earlier one. -/
def ofTriples (triples : List (State × Symbol × State)) : DeterministicTable :=
  putAll ⟨.empty⟩ triples

/-- All transitions in ascending order. -/
def triples (t : DeterministicTable) : List (State × Symbol × State) := t.rows.entries

/-- Adds a transition, unless it reads nothing or its symbol already leads to another state. -/
def insert (t : DeterministicTable) (edge : Edge) : Except InvalidReason DeterministicTable :=
  match edge.label with
  | .epsilon => .error (.unexpectedEpsilon edge.source)
  | .symbol a =>
    match t.successor? edge.source a with
    | some q =>
      if q = edge.target then .ok (t.put edge.source a edge.target)
      else .error (.nondeterministic edge.source a)
    | none => .ok (t.put edge.source a edge.target)

/-- The rows of the kept sources, each with its kept targets. -/
def restrict (t : DeterministicTable) (keep : State → Bool) : DeterministicTable :=
  ⟨⟨t.rows.rows.filterMap fun q row =>
    if keep q then some (row.filter fun _ p => keep p) else none⟩⟩

/-- The rows of the renamed sources, with renamed targets. -/
def rename (t : DeterministicTable) (f : State → State) : DeterministicTable :=
  ⟨⟨.ofList (t.rows.rows.toList.map fun (q, row) => (f q, row.map fun _ p => f p))⟩⟩

instance : TransitionTable DeterministicTable where
  kind := .dfa
  empty := ⟨.empty⟩
  insert := insert
  edges t := t.triples.map fun (p, a, q) => ⟨p, .symbol a, q⟩
  restrict := restrict
  rename := rename

end DeterministicTable

/-- Transitions of which a source and a label may have several. -/
structure EdgeTable (L : Type) [Ord L] where
  rows : Rows L StateSet

namespace EdgeTable

variable {L : Type} [Ord L] [Std.TransOrd L] [Std.LawfulEqOrd L]

instance : DecidableEq (EdgeTable L) := fun t u =>
  match decEq t.rows u.rows with
  | .isTrue h => .isTrue (by cases t; cases u; exact congrArg mk h)
  | .isFalse h => .isFalse fun e => h (congrArg rows e)

/-- The table without transitions. -/
def empty : EdgeTable L := ⟨.empty⟩

/-- The states that a label leads to. -/
def successors (t : EdgeTable L) (q : State) (l : L) : StateSet := (t.rows.get? q l).getD ∅

/-- The states that a label leads to from a set of states. -/
def step (t : EdgeTable L) (states : StateSet) (l : L) : StateSet :=
  states.unionOf fun q => t.successors q l

/-- Adds a transition. -/
def add (t : EdgeTable L) (p : State) (l : L) (q : State) : EdgeTable L :=
  ⟨t.rows.set p l ((t.successors p l).insert q)⟩

/-- All transitions in ascending order. -/
def triples (t : EdgeTable L) : List (State × L × State) :=
  t.rows.entries.flatMap fun (p, l, targets) => targets.toList.map fun q => (p, l, q)

/-- Adds several transitions. -/
def addAll (t : EdgeTable L) (triples : List (State × L × State)) : EdgeTable L :=
  triples.foldl (fun t (p, l, q) => t.add p l q) t

/-- The table of the given transitions. -/
def ofTriples (triples : List (State × L × State)) : EdgeTable L := empty.addAll triples

/-- The transitions both ends of which are kept. -/
def restrict (t : EdgeTable L) (keep : State → Bool) : EdgeTable L :=
  ofTriples (t.triples.filter fun (p, _, q) => keep p && keep q)

/-- The transitions between renamed states. -/
def rename (t : EdgeTable L) (f : State → State) : EdgeTable L :=
  ofTriples (t.triples.map fun (p, l, q) => (f p, l, f q))

end EdgeTable

/-- The transitions of an automaton without empty moves. -/
abbrev NondeterministicTable := EdgeTable Symbol

/-- The transitions of an automaton with empty moves. -/
abbrev EpsilonTable := EdgeTable Label

instance : TransitionTable NondeterministicTable where
  kind := .nfa
  empty := .empty
  insert t edge :=
    match edge.label with
    | .epsilon => .error (.unexpectedEpsilon edge.source)
    | .symbol a => .ok (t.add edge.source a edge.target)
  edges t := t.triples.map fun (p, a, q) => ⟨p, .symbol a, q⟩
  restrict := EdgeTable.restrict
  rename := EdgeTable.rename

instance : TransitionTable EpsilonTable where
  kind := .epsilonNFA
  empty := .empty
  insert t edge := .ok (t.add edge.source edge.label edge.target)
  edges t := t.triples.map fun (p, l, q) => ⟨p, l, q⟩
  restrict := EdgeTable.restrict
  rename := EdgeTable.rename

/-- A deterministic automaton. -/
abbrev DFA := Automaton DeterministicTable

/-- A nondeterministic automaton. -/
abbrev NFA := Automaton NondeterministicTable

/-- A nondeterministic automaton with empty moves. -/
abbrev EpsilonNFA := Automaton EpsilonTable

end RegularLanguages
