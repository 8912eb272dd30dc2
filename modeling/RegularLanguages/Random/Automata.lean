import RegularLanguages.Random.Draws
import RegularLanguages.Automaton.Any

/-!
# Random automata

Random automata over the first letters, with states that are numbered from zero on. A random
deterministic automaton grows from its initial state: each missing transition leads with a given
probability to a state already expanded, and else to a new one while there is room. So it is always
complete, and all its states can be reached.
-/

namespace RegularLanguages.Random

variable {γ : Type} (draws : Draws γ)

/-- The name of a numbered state. -/
def stateName (n : Nat) : State := "q" ++ n.repr

/-- The names of the first states. -/
def stateNames (size : Nat) : List State := (List.range size).map stateName

/-- The members of a list for which a coin shows heads. -/
def someOf {α : Type} : List α → StateM γ (List α)
  | [] => pure []
  | x :: rest => do
    let taken ← draws.coin
    let others ← someOf rest
    return if taken then x :: others else others

/-- The members of a list for which something of the given probability happens. -/
def chosen {α : Type} (p : Float) : List α → StateM γ (List α)
  | [] => pure []
  | x :: rest => do
    let taken ← draws.chance p
    let others ← chosen p rest
    return if taken then x :: others else others

/-- The first member of a list for which something of the given probability happens. -/
def firstChosen? {α : Type} (p : Float) : List α → StateM γ (Option α)
  | [] => pure none
  | x :: rest => do
    if ← draws.chance p then return some x else firstChosen? p rest

/-- The states made so far and their transitions, last one first. -/
structure Sprout where
  size : Nat
  triples : List (Nat × Symbol × Nat)
deriving Repr

namespace Sprout

/-- The target of a transition that is missing from state `current`, and the number of states with
it: a state that was expanded, a new one, or one of all states if there is no room. -/
def target (p : Float) (maxSize size current : Nat) : StateM γ (Nat × Nat) := do
  match ← firstChosen? draws p (List.range (current + 1)) with
  | some q => return (q, size)
  | none =>
    if size < maxSize then return (size, size + 1)
    else return (← draws.below size, size)

/-- Adds the transitions of state `current` on several symbols. -/
def grow (p : Float) (maxSize current : Nat) : Sprout → List Symbol → StateM γ Sprout
  | s, [] => pure s
  | s, a :: symbols => do
    let (q, size) ← target draws p maxSize s.size current
    grow p maxSize current ⟨size, (current, a, q) :: s.triples⟩ symbols

/-- Expands the states from `current` on until there is none left, at most `states` of them. -/
def growAll (p : Float) (maxSize : Nat) (symbols : List Symbol) :
    (states current : Nat) → Sprout → StateM γ Sprout
  | 0, _, s => pure s
  | states + 1, current, s =>
    if current < s.size then do
      let s ← grow draws p maxSize current s symbols
      growAll p maxSize symbols states (current + 1) s
    else pure s

end Sprout

/-- A random deterministic automaton over an alphabet. -/
def dfaOver (alphabet : Alphabet) (p : Float) (maxSize : Nat) : StateM γ DFA := do
  let room := max maxSize 1
  let sprout ← Sprout.growAll draws p room alphabet.toList room 0 ⟨1, []⟩
  let finals ← someOf draws (stateNames sprout.size)
  return {
    states := .ofList (stateNames sprout.size)
    alphabet := alphabet
    transitions := .ofTriples (sprout.triples.map fun (q, a, r) => (stateName q, a, stateName r))
    initial := stateName 0
    finals := .ofList finals }

/-- A random nondeterministic automaton over an alphabet: every transition is there with the same
probability. -/
def nfaOver (alphabet : Alphabet) (size : Nat) (density : Float) : StateM γ NFA := do
  let states := stateNames (max size 1)
  let triples ← chosen draws density
    (states.flatMap fun p => alphabet.toList.flatMap fun a => states.map fun q => (p, a, q))
  let finals ← someOf draws states
  return {
    states := .ofList states
    alphabet := alphabet
    transitions := .ofTriples triples
    initial := stateName 0
    finals := .ofList finals }

/-- A random automaton with empty moves over an alphabet: one without, to which every empty move
between two different states is added with the same probability. -/
def epsilonNFAOver (alphabet : Alphabet) (size : Nat) (density epsilonDensity : Float) :
    StateM γ EpsilonNFA := do
  let N ← nfaOver draws alphabet size density
  let states := N.states.toList
  let moves ← chosen draws epsilonDensity
    (states.flatMap fun p => (states.filter fun q => p != q).map fun q => (p, q))
  let E := N.toEpsilonNFA
  return { E with
    transitions := E.transitions.addAll (moves.map fun (p, q) => (p, .epsilon, q)) }

/-- A random deterministic automaton over the first letters, if there are enough of them. -/
def dfa? (symbols : Nat) (p : Float) (maxSize : Nat) : Option (StateM γ DFA) :=
  (Alphabet.ofSize? symbols).map fun alphabet => dfaOver draws alphabet p maxSize

/-- A random nondeterministic automaton over the first letters, if there are enough of them. -/
def nfa? (symbols size : Nat) (density : Float) : Option (StateM γ NFA) :=
  (Alphabet.ofSize? symbols).map fun alphabet => nfaOver draws alphabet size density

/-- A random automaton with empty moves over the first letters, if there are enough of them. -/
def epsilonNFA? (symbols size : Nat) (density epsilonDensity : Float) :
    Option (StateM γ EpsilonNFA) :=
  (Alphabet.ofSize? symbols).map fun alphabet =>
    epsilonNFAOver draws alphabet size density epsilonDensity

end RegularLanguages.Random
