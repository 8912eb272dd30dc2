import RegularLanguages.Alphabet

/-!
# States, kinds and transitions

States are named by texts and ordered by them. A transition leads from a source over a label to a
target; transitions are ordered by source, then label, then target.
-/

namespace RegularLanguages

/-- The name of a state. -/
abbrev State := String

/-- A finite set of states. -/
abbrev StateSet := Std.ExtTreeSet State

namespace StateSet

/-- The set of the given states. -/
def ofList (states : List State) : StateSet := Std.ExtTreeSet.ofList states

/-- The set of one state. -/
def single (q : State) : StateSet := ofList [q]

/-- The states that `f` gives for the members of a set. -/
def image (f : State → State) (states : StateSet) : StateSet := ofList (states.toList.map f)

/-- The states that lie in one of the sets `f` gives for the members of a set. -/
def unionOf (f : State → StateSet) (states : StateSet) : StateSet :=
  ofList (states.toList.flatMap fun q => (f q).toList)

/-- The set of a list has the states of the list. -/
@[simp] theorem mem_ofList {states : List State} {q : State} : q ∈ ofList states ↔ q ∈ states := by
  simp [ofList, Std.ExtTreeSet.mem_ofList]

/-- The set of a single state has this state only. -/
@[simp] theorem mem_single {p q : State} : q ∈ single p ↔ q = p := by
  simp [single]

/-- The image of a set has the images of its states. -/
@[simp] theorem mem_image {f : State → State} {states : StateSet} {q : State} :
    q ∈ image f states ↔ ∃ p ∈ states, f p = q := by
  simp [image, Std.ExtTreeSet.mem_toList]

/-- The union of the sets that belong to the states of a set has the members of all of them. -/
@[simp] theorem mem_unionOf {f : State → StateSet} {states : StateSet} {q : State} :
    q ∈ unionOf f states ↔ ∃ p ∈ states, q ∈ f p := by
  simp [unionOf, Std.ExtTreeSet.mem_toList]

/-- Sets of states are ordered like the ascending lists of their members. -/
instance : Ord StateSet := ⟨compareOn Std.ExtTreeSet.toList⟩

instance : Std.TransOrd StateSet :=
  inferInstanceAs (Std.TransCmp (compareOn (Std.ExtTreeSet.toList (α := State))))

instance : Std.LawfulEqOrd StateSet where
  eq_of_compare h := Std.ExtTreeSet.toList_inj.mp (Std.LawfulEqOrd.eq_of_compare h)

end StateSet

/-- The three kinds of finite automata. -/
inductive Kind where
  /-- At most one successor for each state and symbol. -/
  | dfa
  /-- Any number of successors, no empty moves. -/
  | nfa
  /-- Any number of successors, also without reading a symbol. -/
  | epsilonNFA
deriving DecidableEq, Repr

namespace Kind

/-- The name of a kind. -/
def text : Kind → String
  | dfa => "DFA"
  | nfa => "NFA"
  | epsilonNFA => "epsilon-NFA"

end Kind

/-- A transition. -/
structure Edge where
  source : State
  label : Label
  target : State
deriving DecidableEq, Repr

namespace Edge

/-- By source, then label, then target. -/
instance : Ord Edge :=
  ⟨compareLex (compareOn source) (compareLex (compareOn label) (compareOn target))⟩

end Edge

end RegularLanguages
