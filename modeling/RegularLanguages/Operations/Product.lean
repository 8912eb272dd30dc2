import RegularLanguages.Automaton.Any
import RegularLanguages.Operations.Error

/-!
# Products

The product of two automata runs both side by side; an acceptance condition says which outcomes of
the two count as accepting. Unless both have to accept, a run that gets stuck still matters, so the
operands are completed first. A word that one automaton accepts and the other does not is found in
the product that accepts exactly those.
-/

namespace RegularLanguages

/-- When a pair of outcomes counts as accepting. -/
inductive Acceptance where
  | both
  | either
  | leftOnly
  | exactlyOne
deriving DecidableEq, Repr

namespace Acceptance

/-- Whether a pair of outcomes counts as accepting. -/
def combine : Acceptance → (left right : Bool) → Bool
  | both, l, r => l && r
  | either, l, r => l || r
  | leftOnly, l, r => l && !r
  | exactlyOne, l, r => l != r

/-- Whether a pair can count as accepting although one of the runs is stuck. -/
def needsCompletion : Acceptance → Bool
  | both => false
  | either | leftOnly | exactlyOne => true

end Acceptance

/-- A state of each of two automata. -/
structure StatePair where
  left : State
  right : State
deriving DecidableEq, Repr

namespace StatePair

/-- By the left state, then the right one. -/
instance : Ord StatePair := ⟨compareLex (compareOn left) (compareOn right)⟩

instance : Std.TransOrd StatePair :=
  inferInstanceAs (Std.TransCmp (compareLex (compareOn left) (compareOn right)))

instance : Std.LawfulEqOrd StatePair where
  eq_of_compare {p q} h := by
    obtain ⟨a, b⟩ := p
    obtain ⟨c, d⟩ := q
    simp only [compare, compareLex_eq_eq] at h
    have hleft : a = c := Std.LawfulEqOrd.eq_of_compare h.1
    have hright : b = d := Std.LawfulEqOrd.eq_of_compare h.2
    rw [hleft, hright]

/-- The name of the pair as a state. -/
def name (p : StatePair) : State := State.ofPair p.left p.right

/-- All pairs of a state of one list and a state of another. -/
def all (lefts rights : List State) : List StatePair :=
  lefts.flatMap fun l => rights.map fun r => ⟨l, r⟩

end StatePair

namespace DFA

/-- The pairs that can be reached when two automata run side by side, and the automaton they make
up. -/
def pairs (L R : DFA) (acceptance : Acceptance) : DFA :=
  let first : StatePair := ⟨L.initial, R.initial⟩
  let found : Search StatePair := Id.run (Search.run Meter.free L.alphabet.toList
    (fun p a => StatePair.all (L.successor? p.left a).toList (R.successor? p.right a).toList)
    (L.states.size * R.states.size) first)
  found.toDFA L.alphabet StatePair.name first fun p =>
    acceptance.combine (L.isFinal p.left) (R.isFinal p.right)

/-- The product of two automata over one alphabet. -/
def product (L R : DFA) (acceptance : Acceptance) : Except OperationError DFA :=
  match sameAlphabet L.alphabet R.alphabet with
  | .error e => .error e
  | .ok () =>
    if acceptance.needsCompletion then .ok (pairs L.complete R.complete acceptance)
    else .ok (pairs L R acceptance)

/-- The words that one of the automata accepts. -/
def union (L R : DFA) : Except OperationError DFA := L.product R .either

/-- The words that both automata accept. -/
def intersection (L R : DFA) : Except OperationError DFA := L.product R .both

/-- The words that the first automaton accepts and the second does not. -/
def difference (L R : DFA) : Except OperationError DFA := L.product R .leftOnly

/-- The least word that exactly one of the automata accepts, if there is one. Their alphabets may
differ. -/
def separate? (L R : DFA) : Option Word :=
  let alphabet := L.alphabet ∪ R.alphabet
  match product (L.extendAlphabet alphabet) (R.extendAlphabet alphabet) .exactlyOne with
  | .ok P => P.leastWord?
  | .error _ => none

/-- Whether the automata accept the same words. -/
def equivalent (L R : DFA) : Bool := (L.separate? R).isNone

end DFA

namespace NFA

/-- The product of two automata over one alphabet that accepts what both accept. -/
def pairs (L R : NFA) (acceptance : Acceptance) : NFA :=
  let first : StatePair := ⟨L.initial, R.initial⟩
  let found : Search StatePair := Id.run (Search.run Meter.free L.alphabet.toList
    (fun p a => StatePair.all (L.successors p.left a).toList (R.successors p.right a).toList)
    (L.states.size * R.states.size) first)
  found.toNFA L.alphabet StatePair.name first fun p =>
    acceptance.combine (L.isFinal p.left) (R.isFinal p.right)

end NFA

/-- The product of two automata of any kinds over one alphabet. If both have to accept, it is built
without making the operands deterministic. -/
def cartesianProduct (l r : AnyAutomaton) (acceptance : Acceptance) : Except OperationError NFA :=
  match sameAlphabet l.alphabet r.alphabet with
  | .error e => .error e
  | .ok () =>
    match acceptance with
    | .both => .ok (l.toNFA.pairs r.toNFA acceptance)
    | .either | .leftOnly | .exactlyOne => (l.toDFA.product r.toDFA acceptance).map DFA.toNFA

end RegularLanguages
