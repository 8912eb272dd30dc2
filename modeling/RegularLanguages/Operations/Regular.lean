import RegularLanguages.Operations.Product

/-!
# Operations on languages

Union, concatenation, star and power join automata by empty moves; the other operations come from
products, complements and changed labels. The operands of a union or a concatenation are kept apart
by the beginnings `1_` and `2_` of the names of their states.
-/

namespace RegularLanguages

namespace EpsilonNFA

/-- The automaton with a text in front of the names of its states. -/
def tagged (E : EpsilonNFA) (tag : String) : EpsilonNFA := E.rename fun q => tag ++ q

/-- The table with empty moves from each of some states to one state. -/
def moves (t : EpsilonTable) (sources : StateSet) (target : State) : EpsilonTable :=
  t.addAll (sources.toList.map fun q => (q, .epsilon, target))

/-- The transitions of two tables. -/
def merge (t u : EpsilonTable) : EpsilonTable := t.addAll u.triples

/-- The words that lead through one of two automata, which share no states and do not have the
state `initial`. -/
def alternatives (initial : State) (L R : EpsilonNFA) : EpsilonNFA where
  states := (L.states ∪ R.states).insert initial
  alphabet := L.alphabet ∪ R.alphabet
  transitions := ((merge L.transitions R.transitions).add initial .epsilon L.initial).add
    initial .epsilon R.initial
  initial := initial
  finals := L.finals ∪ R.finals

/-- The words that lead through two automata one after the other, which share no states and do not
have the state `initial`. -/
def sequence (initial : State) (L R : EpsilonNFA) : EpsilonNFA where
  states := (L.states ∪ R.states).insert initial
  alphabet := L.alphabet ∪ R.alphabet
  transitions := moves ((merge L.transitions R.transitions).add initial .epsilon L.initial)
    L.finals R.initial
  initial := initial
  finals := R.finals

/-- The words that lead through an automaton any number of times; it has neither of the two
states. -/
def repetition (initial final : State) (E : EpsilonNFA) : EpsilonNFA where
  states := (E.states.insert initial).insert final
  alphabet := E.alphabet
  transitions := moves (moves
    ((E.transitions.add initial .epsilon E.initial).add initial .epsilon final)
    E.finals E.initial) E.finals final
  initial := initial
  finals := .single final

/-- The automaton of the empty word alone. -/
def emptyWord (alphabet : Alphabet) (q : State) : EpsilonNFA where
  states := .single q
  alphabet := alphabet
  transitions := .empty
  initial := q
  finals := .single q

end EpsilonNFA

/-- The words that one of the automata accepts. -/
def union (l r : AnyAutomaton) : Except OperationError EpsilonNFA :=
  match sameAlphabet l.alphabet r.alphabet with
  | .error e => .error e
  | .ok () =>
    .ok (.alternatives "union_initial" (l.toEpsilonNFA.tagged "1_") (r.toEpsilonNFA.tagged "2_"))

/-- The words with a first part that one automaton accepts and a rest that the other accepts. The
alphabets may differ. -/
def concatenation (l r : AnyAutomaton) : EpsilonNFA :=
  .sequence "concat_initial" (l.toEpsilonNFA.tagged "1_") (r.toEpsilonNFA.tagged "2_")

/-- The words that split into any number of accepted words. -/
def kleeneStar (A : AnyAutomaton) : EpsilonNFA :=
  let E := A.toEpsilonNFA
  let initial := State.fresh E.states "kleene_initial"
  let final := State.fresh (E.states.insert initial) "kleene_final"
  E.repetition initial final

/-- The words that split into `n + 1` accepted words. -/
def positivePower (A : AnyAutomaton) : (n : Nat) → EpsilonNFA
  | 0 => A.toEpsilonNFA
  | n + 1 => concatenation (positivePower A n) A

/-- The words that split into `n` accepted words. -/
def power (A : AnyAutomaton) (n : Int) : Except OperationError EpsilonNFA :=
  match n with
  | .negSucc _ => .error (.negativeExponent n)
  | .ofNat 0 => .ok (.emptyWord A.alphabet "power_initial")
  | .ofNat (k + 1) => .ok (positivePower A k)

/-- The words that both automata accept. -/
def intersection (l r : AnyAutomaton) : Except OperationError NFA := cartesianProduct l r .both

/-- The words over the alphabet that a deterministic automaton does not accept. -/
def complement (A : AnyAutomaton) : Except OperationError DFA :=
  match A.asDeterministic? with
  | some D => .ok D.complement
  | none => .error (.notDeterministic A.kind)

/-- The words that the first automaton accepts and the second, which is deterministic, does not. -/
def difference (l r : AnyAutomaton) : Except OperationError NFA :=
  match sameAlphabet l.alphabet r.alphabet with
  | .error e => .error e
  | .ok () =>
    match complement r with
    | .error e => .error e
    | .ok C => intersection l C

/-- The words that exactly one of two deterministic automata accepts. -/
def symmetricDifference (l r : AnyAutomaton) : Except OperationError EpsilonNFA :=
  match difference l r with
  | .error e => .error e
  | .ok onlyLeft =>
    match difference r l with
    | .error e => .error e
    | .ok onlyRight => union onlyLeft onlyRight

/-- Which symbol takes the place of a symbol. -/
abbrev SymbolMap := Std.ExtTreeMap Symbol Symbol

/-- The first symbol of the alphabet that a mapping says nothing about, or failing that the first
that it turns into the empty move. -/
def SymbolMap.fault? (h : SymbolMap) (alphabet : Alphabet) : Option OperationError :=
  match alphabet.toList.find? fun a => !h.contains a with
  | some a => some (.noImage a)
  | none =>
    match alphabet.toList.find? fun a => h[a]? == some epsilonSymbol with
    | some a => some (.emptyImage a)
    | none => none

/-- The automaton with another symbol in place of each symbol. -/
def NFA.mapSymbols (N : NFA) (h : SymbolMap) : NFA where
  states := N.states
  alphabet := .ofList (N.alphabet.toList.filterMap fun a => h[a]?)
  transitions := .ofTriples (N.transitions.triples.filterMap fun (p, a, q) =>
    h[a]?.map fun b => (p, b, q))
  initial := N.initial
  finals := N.finals

/-- The automaton that reads a symbol as what a mapping puts in its place. -/
def NFA.readThrough (N : NFA) (h : SymbolMap) : NFA where
  states := N.states
  alphabet := .ofList h.keys
  transitions := .ofTriples (N.states.toList.flatMap fun q => h.toList.flatMap fun (a, b) =>
    (N.successors q b).toList.map fun p => (q, a, p))
  initial := N.initial
  finals := N.finals

/-- The images of the accepted words, symbol by symbol. -/
def homomorphism (A : AnyAutomaton) (h : SymbolMap) : Except OperationError NFA :=
  match h.fault? A.alphabet with
  | some e => .error e
  | none => .ok (A.toNFA.mapSymbols h)

/-- The words over the symbols of a mapping whose images are accepted. -/
def inverseHomomorphism (A : AnyAutomaton) (h : SymbolMap) : Except OperationError NFA :=
  if h.contains epsilonSymbol then .error .emptySource else .ok (A.toNFA.readThrough h)

end RegularLanguages
