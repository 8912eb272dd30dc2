import RegularLanguages.Automaton.Search
import RegularLanguages.Automaton.Reach
import RegularLanguages.Partition

/-!
# Minimal automata

States that no word tells apart are merged. The states are numbered in ascending order, and a
partition of the numbers begins with final and with other states and is refined round by round: two
states stay in a common class if their successors are in a common class on every symbol, where a
missing successor counts as a class of its own. The rounds end when one adds no class.
-/

namespace RegularLanguages

/-- For the number of each state, the numbers of its successors, symbol by symbol. -/
abbrev SuccessorRows := Array (List (Option Nat))

namespace SuccessorRows

/-- Puts an item in front of the group with its key. -/
def addToGroup {κ α : Type} [BEq κ] (key : κ) (item : α) : List (κ × List α) → List (κ × List α)
  | [] => [(key, [item])]
  | (k, group) :: rest =>
    if k == key then (k, item :: group) :: rest else (k, group) :: addToGroup key item rest

/-- The groups of items with a common key, each in the order of the list. -/
def groupsBy {κ α : Type} [BEq κ] (key : α → κ) : List α → List (List α)
  | [item] => [[item]]
  | items => (items.foldr (fun item groups => addToGroup (key item) item groups) []).map (·.2)

/-- For each of the first `size` numbers, the position of the class it is in. -/
def positions (size : Nat) (classes : List (List Nat)) : Array Nat :=
  classes.zipIdx.foldl (fun found (c, n) => c.foldl (fun found i => found.setIfInBounds i n) found)
    (Array.replicate size 0)

/-- The positions of the classes of the successors, symbol by symbol. -/
def signature (rows : SuccessorRows) (positions : Array Nat) (i : Nat) : List (Option Nat) :=
  (rows.getD i []).map fun successor => successor.bind fun j => positions[j]?

/-- The classes after one more round. -/
def refine (rows : SuccessorRows) (classes : List (List Nat)) : List (List Nat) :=
  let positions := positions rows.size classes
  classes.flatMap (groupsBy (rows.signature positions))

/-- Refines classes until a round adds none. -/
def refineAll {m : Type → Type} [Monad m] (meter : Meter m) (rows : SuccessorRows) :
    (rounds : Nat) → List (List Nat) → m (List (List Nat))
  | 0, classes => pure classes
  | rounds + 1, classes => do
    meter.ticks rows.size
    let refined := rows.refine classes
    if refined.length = classes.length then return refined
    else refineAll meter rows rounds refined

/-- Each class at the place of its first number, and nothing at the other places. -/
def atFirst (size : Nat) (classes : List (List Nat)) : Array (List Nat) :=
  classes.foldl (fun places c => places.setIfInBounds (c.headD size) c) (Array.replicate size [])

end SuccessorRows

namespace DFA

/-- The number of each state. -/
def numbers (D : DFA) : Std.ExtTreeMap State Nat := .ofList D.states.toList.zipIdx

/-- The successors of all states by their numbers. -/
def successorRows (D : DFA) : SuccessorRows :=
  let numbers := D.numbers
  let symbols := D.alphabet.toList
  (D.states.toList.map fun q => symbols.map fun a =>
    (D.successor? q a).bind fun p => numbers[p]?).toArray

/-- The numbers of the final states and those of the others. -/
def finality (D : DFA) : List (List Nat) :=
  let states := D.states.toArray
  SuccessorRows.groupsBy (fun i => states[i]?.any D.isFinal) (List.range states.size)

/-- The classes of states that no word tells apart, in the order of their least states, reporting
to a meter. There are no more rounds than states, since each but the last adds a class. -/
def indistinguishableWith {m : Type → Type} [Monad m] (meter : Meter m) (D : DFA) :
    m (Partition State) := do
  let states := D.states.toArray
  let classes ← D.successorRows.refineAll meter (states.size + 1) D.finality
  return Partition.ofGroups ((SuccessorRows.atFirst states.size classes).toList.map fun c =>
    c.filterMap fun i => states[i]?)

/-- The classes of states that no word tells apart, in the order of their least states. -/
def indistinguishable (D : DFA) : Partition State := Id.run (D.indistinguishableWith Meter.free)

/-- For each state the name of its class. -/
def classNames (p : Partition State) : Std.ExtTreeMap State State :=
  .ofList (p.classes.flatMap fun c =>
    let name := State.ofSet c
    c.toList.map fun q => (q, name))

/-- The transitions of the least state of each class, between the names of classes. -/
def classTriples (D : DFA) (p : Partition State) : List (State × Symbol × State) :=
  let names := classNames p
  p.classes.flatMap fun c =>
    match c.min? with
    | none => []
    | some q => D.alphabet.toList.filterMap fun a =>
      (D.successor? q a).map fun r => (names.getD q q, a, names.getD r r)

/-- The automaton with one state for each class. -/
def quotient (D : DFA) (p : Partition State) : DFA :=
  let names := classNames p
  { states := .ofList (p.classes.map State.ofSet)
    alphabet := D.alphabet
    transitions := .ofTriples (D.classTriples p)
    initial := names.getD D.initial D.initial
    finals := D.finals.image fun q => names.getD q q }

/-- The automaton without unreachable states and with indistinguishable states merged, reporting to
a meter. It has the least number of states if the given automaton is complete. -/
def minimizeWith {m : Type → Type} [Monad m] (meter : Meter m) (D : DFA) : m DFA := do
  let R : DFA := D.trimmed
  return R.quotient (← R.indistinguishableWith meter)

/-- The automaton without unreachable states and with indistinguishable states merged. -/
def minimize (D : DFA) : DFA := Id.run (D.minimizeWith Meter.free)

end DFA

end RegularLanguages
