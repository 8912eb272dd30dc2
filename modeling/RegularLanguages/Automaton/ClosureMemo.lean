import RegularLanguages.Automaton.Nondeterministic

/-!
# Remembered closures

Closures under empty moves are remembered by the sets they are closures of. Every answer is the
closure, whether it is computed or remembered, as long as only one automaton is asked about.
-/

namespace RegularLanguages

/-- Closures by the sets they are closures of. -/
structure ClosureMemo where
  closures : Std.ExtTreeMap StateSet StateSet

namespace ClosureMemo

/-- Nothing is remembered. -/
def empty : ClosureMemo := ⟨∅⟩

/-- The number of sets whose closures are remembered. -/
def size (memo : ClosureMemo) : Nat := memo.closures.size

/-- Whether nothing is remembered. -/
def isEmpty (memo : ClosureMemo) : Bool := memo.closures.isEmpty

/-- The closure of a set, remembered from now on. -/
def closure (E : EpsilonNFA) (memo : ClosureMemo) (states : StateSet) : StateSet × ClosureMemo :=
  match memo.closures[states]? with
  | some closed => (closed, memo)
  | none =>
    let closed := E.closure states
    (closed, ⟨memo.closures.insert states closed⟩)

/-- The closures of several sets, one after another. -/
def closureAll (E : EpsilonNFA) : (memo : ClosureMemo) → List StateSet →
    List StateSet × ClosureMemo
  | memo, [] => ([], memo)
  | memo, states :: rest =>
    let (closed, memo) := memo.closure E states
    let (others, memo) := closureAll E memo rest
    (closed :: others, memo)

end ClosureMemo

end RegularLanguages
