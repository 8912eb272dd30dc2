import RegularLanguages.Automaton.Table

/-!
# Tables in storage

A table is changed where it is stored. Before a symbol is looked up in the row of a source, this
row is made if there was none; only then the transition may turn out to be one too many. Renaming
takes the rows one by one and puts each under the new name of its source. A table of any kind has
the operations of its kind, and what its labels lead to can be looked up.
-/

namespace RegularLanguages

namespace Rows

variable {L V : Type} [Ord L] [Std.TransOrd L]

/-- The same rows, and an empty one for a source without a row. -/
def withRow (r : Rows L V) (q : State) : Rows L V := ⟨r.rows.insertIfNew q ∅⟩

/-- The rows under the new names of their sources, with `g` of what the labels led to. -/
def renamed (r : Rows L V) (f : State → State) (g : V → V) : Rows L V :=
  ⟨.ofList (r.rows.toList.map fun (q, row) => (f q, row.map fun _ v => g v))⟩

end Rows

/-- The symbol that a transition reads, where every transition has to read one. -/
def Edge.symbolRead (edge : Edge) : Except InvalidReason Symbol :=
  match edge.label with
  | .epsilon => .error (.unexpectedEpsilon edge.source)
  | .symbol a => .ok a

/-- Enters a transition: whether the table takes it, and the table afterwards. -/
def DeterministicTable.enter (t : DeterministicTable) (edge : Edge) :
    Except InvalidReason Unit × DeterministicTable :=
  match edge.symbolRead with
  | .error reason => (.error reason, t)
  | .ok a =>
    -- From here on the table has a row for the source, also if the transition is refused.
    let t : DeterministicTable := ⟨t.rows.withRow edge.source⟩
    match t.successor? edge.source a with
    | some q =>
      if q = edge.target then (.ok (), t.put edge.source a edge.target)
      else (.error (.nondeterministic edge.source a), t)
    | none => (.ok (), t.put edge.source a edge.target)

/-- Enters a transition: whether the table takes it, and the table afterwards. -/
def NondeterministicTable.enter (t : NondeterministicTable) (edge : Edge) :
    Except InvalidReason Unit × NondeterministicTable :=
  match edge.symbolRead with
  | .error reason => (.error reason, t)
  | .ok a => (.ok (), t.add edge.source a edge.target)

/-- Enters a transition, which the table always takes. -/
def EpsilonTable.enter (t : EpsilonTable) (edge : Edge) :
    Except InvalidReason Unit × EpsilonTable :=
  (.ok (), t.add edge.source edge.label edge.target)

/-- The rows of the renamed sources, with renamed targets. -/
def EdgeTable.renameRows {L : Type} [Ord L] [Std.TransOrd L] (t : EdgeTable L)
    (f : State → State) : EdgeTable L :=
  ⟨t.rows.renamed f (.image f)⟩

/-- A table of any kind. -/
inductive AnyTable where
  | dfa (t : DeterministicTable)
  | nfa (t : NondeterministicTable)
  | epsilonNFA (t : EpsilonTable)
deriving DecidableEq

namespace AnyTable

/-- Which kind of automaton the table belongs to. -/
def kind : AnyTable → Kind
  | dfa _ => .dfa
  | nfa _ => .nfa
  | epsilonNFA _ => .epsilonNFA

/-- The table without transitions. -/
def empty : Kind → AnyTable
  | .dfa => dfa TransitionTable.empty
  | .nfa => nfa TransitionTable.empty
  | .epsilonNFA => epsilonNFA TransitionTable.empty

/-- All transitions in ascending order. -/
def edges : AnyTable → List Edge
  | dfa t | nfa t | epsilonNFA t => TransitionTable.edges t

/-- The states that a label leads to. -/
def targets : AnyTable → State → Label → List State
  | dfa t, q, .symbol a => (t.successor? q a).toList
  | nfa t, q, .symbol a => (t.successors q a).toList
  | dfa _, _, .epsilon | nfa _, _, .epsilon => []
  | epsilonNFA t, q, l => (t.successors q l).toList

/-- The table with another transition, unless tables of this kind cannot have it. -/
def insert : AnyTable → Edge → Except InvalidReason AnyTable
  | dfa t, edge => (TransitionTable.insert t edge).map dfa
  | nfa t, edge => (TransitionTable.insert t edge).map nfa
  | epsilonNFA t, edge => (TransitionTable.insert t edge).map epsilonNFA

/-- Enters a transition: whether the table takes it, and the table afterwards. -/
def enter : AnyTable → Edge → Except InvalidReason Unit × AnyTable
  | dfa t, edge => (t.enter edge).map id dfa
  | nfa t, edge => (t.enter edge).map id nfa
  | epsilonNFA t, edge => (t.enter edge).map id epsilonNFA

/-- The transitions both ends of which are kept. -/
def restrict : AnyTable → (keep : State → Bool) → AnyTable
  | dfa t, keep => dfa (TransitionTable.restrict t keep)
  | nfa t, keep => nfa (TransitionTable.restrict t keep)
  | epsilonNFA t, keep => epsilonNFA (TransitionTable.restrict t keep)

/-- The transitions between renamed states; the renaming has to be injective. -/
def rename : AnyTable → (State → State) → AnyTable
  | dfa t, f => dfa (TransitionTable.rename t f)
  | nfa t, f => nfa (TransitionTable.rename t f)
  | epsilonNFA t, f => epsilonNFA (TransitionTable.rename t f)

/-- The rows of the renamed sources, with renamed targets. -/
def renameRows : AnyTable → (State → State) → AnyTable
  | dfa t, f => dfa ⟨t.rows.renamed f f⟩
  | nfa t, f => nfa (t.renameRows f)
  | epsilonNFA t, f => epsilonNFA (t.renameRows f)

end AnyTable

end RegularLanguages
