import Mathlib.Data.Finset.Prod
import RegularLanguages.Operations.Product
import RegularLanguages.Proofs.SearchTraces

/-!
# Products run two automata side by side

The pairs of states that a product finds are pairs of states of its operands, of which there are no
more than steps in the search. What is accepted from a pair depends on the runs from both of its
states, if none of them gets stuck. In complete automata with the same alphabet, none does before
the other, and no condition accepts where both have stopped.
-/

namespace RegularLanguages

namespace StatePair

/-- The pairs of two lists are made of a state of each. -/
theorem mem_all {lefts rights : List State} {p : StatePair} :
    p ∈ all lefts rights ↔ p.left ∈ lefts ∧ p.right ∈ rights := by
  obtain ⟨l, r⟩ := p
  simp [all]

/-- The states of the pair belong to one set each. -/
def Within (lefts rights : StateSet) (p : StatePair) : Prop := p.left ∈ lefts ∧ p.right ∈ rights

/-- There are no more pairs than the product of the numbers of states. -/
theorem size_le_mul {lefts rights : StateSet} {pairs : Std.ExtTreeSet StatePair}
    (h : ∀ p ∈ pairs, Within lefts rights p) :
    pairs.size ≤ lefts.size * rights.size := by
  rw [← FiniteSet.card_toFinset pairs, ← FiniteSet.card_toFinset lefts,
    ← FiniteSet.card_toFinset rights, ← Finset.card_product]
  apply Finset.card_le_card_of_injOn fun p : StatePair => (p.left, p.right)
  · intro p hp
    have hwithin := h p (by simpa using hp)
    exact Finset.mem_product.mpr (hwithin.imp FiniteSet.mem_toFinset.mpr FiniteSet.mem_toFinset.mpr)
  · intro p _ q _ hsame
    obtain ⟨l, r⟩ := p
    obtain ⟨l', r'⟩ := q
    simpa using hsame

/-- Pairs of states have names of their own. -/
theorem name_injective : Function.Injective name := by
  intro p q hname
  obtain ⟨l, r⟩ := p
  obtain ⟨l', r'⟩ := q
  obtain ⟨rfl, rfl⟩ := State.ofPair_inj hname
  rfl

/-- A trace from pair to pair is a trace of each automaton, both of the same word. -/
theorem trace_leads_all (symbols : List Symbol) (left right : State → Symbol → List State)
    {p q : StatePair} {w : Word} :
    Trace (Search.Leads symbols fun p a => all (left p.left a) (right p.right a)) p w q ↔
      Trace (Search.Leads symbols left) p.left w q.left ∧
        Trace (Search.Leads symbols right) p.right w q.right := by
  induction w generalizing p with
  | nil =>
    obtain ⟨l, r⟩ := p
    obtain ⟨l', r'⟩ := q
    simp only [Search.trace_leads_nil, mk.injEq]
  | cons a w ih =>
    simp only [Search.trace_leads_cons, ih, mem_all]
    constructor
    · intro h
      obtain ⟨ha, r, ⟨hl, hr⟩, hleft, hright⟩ := h
      exact ⟨⟨ha, r.left, hl, hleft⟩, ha, r.right, hr, hright⟩
    · intro h
      obtain ⟨⟨ha, l, hl, hleft⟩, -, r, hr, hright⟩ := h
      exact ⟨ha, ⟨l, r⟩, ⟨hl, hr⟩, hleft, hright⟩

section Search

variable {lefts rights : StateSet} {left right : State → Symbol → List State} {first : StatePair}
  (hfirst : first.Within lefts rights) (hleft : ∀ p a, ∀ q ∈ left p a, q ∈ lefts)
  (hright : ∀ p a, ∀ q ∈ right p a, q ∈ rights)

include hleft hright in
/-- Symbols lead to pairs of states. -/
theorem within_of_mem_all {p q : StatePair} {a : Symbol}
    (hq : q ∈ all (left p.left a) (right p.right a)) : q.Within lefts rights :=
  (mem_all.mp hq).imp (hleft _ _ _) (hright _ _ _)

include hfirst hleft hright

/-- The search of a product finds all pairs of states that it can find. -/
theorem explores (symbols : List Symbol) :
    Search.Explores symbols (fun p a => all (left p.left a) (right p.right a))
      (Within lefts rights) first
      (Id.run (Search.run Meter.free symbols (fun p a => all (left p.left a) (right p.right a))
        (lefts.size * rights.size) first)) :=
  Search.explores_run hfirst (fun _ _ _ _ _ => within_of_mem_all hleft hright)
    fun _ ht => size_le_mul ht

/-- The pairs that the search of a product finds are those to which a word leads both automata. -/
theorem mem_found (symbols : List Symbol) {p : StatePair} :
    p ∈ (Id.run (Search.run Meter.free symbols (fun p a => all (left p.left a) (right p.right a))
        (lefts.size * rights.size) first)).found ↔
      ∃ w, Trace (Search.Leads symbols left) first.left w p.left ∧
        Trace (Search.Leads symbols right) first.right w p.right := by
  simp only [← trace_leads_all]
  exact Search.mem_found_run hfirst (fun _ _ _ _ _ => within_of_mem_all hleft hright)
    fun _ ht => size_le_mul ht

end Search

end StatePair

/-- No condition accepts if neither automaton does. -/
theorem Acceptance.combine_false (acceptance : Acceptance) :
    acceptance.combine false false = false := by
  cases acceptance <;> rfl

namespace DFA

variable {L R : DFA}

/-- The successors in a well-formed deterministic automaton are states of it. -/
theorem mem_of_mem_successor? {D : DFA} (hD : D.WellFormed) (p : State) (a : Symbol) :
    ∀ q ∈ (D.successor? p a).toList, q ∈ D.states :=
  fun _ hq => successor_mem hD (Option.mem_toList.mp hq)

/-- The pairs of states of two automata are found with the arcs between them. -/
theorem explores_pairs (hL : L.WellFormed) (hR : R.WellFormed) :
    Search.Explores L.alphabet.toList
      (fun p a => StatePair.all (L.successor? p.left a).toList (R.successor? p.right a).toList)
      (StatePair.Within L.states R.states) ⟨L.initial, R.initial⟩
      (Id.run (Search.run Meter.free L.alphabet.toList
        (fun p a => StatePair.all (L.successor? p.left a).toList (R.successor? p.right a).toList)
        (L.states.size * R.states.size) ⟨L.initial, R.initial⟩)) :=
  StatePair.explores ⟨hL.initial_mem, hR.initial_mem⟩ (mem_of_mem_successor? hL)
    (mem_of_mem_successor? hR) _

/-- The automaton of pairs is well-formed. -/
theorem wellFormed_pairs (hL : L.WellFormed) (hR : R.WellFormed) {acceptance : Acceptance} :
    (pairs L R acceptance).WellFormed :=
  (explores_pairs hL hR).wellFormed_toDFA fun _ => Std.ExtTreeSet.mem_toList.mp

/-- Whether the runs from both states of a pair end, in states that together count as accepting. -/
def acceptsSideBySide (L R : DFA) (acceptance : Acceptance) (p : StatePair) (w : Word) : Bool :=
  (L.runFrom p.left w).any fun l => (R.runFrom p.right w).any fun r =>
    acceptance.combine (L.isFinal l) (R.isFinal r)

/-- Side by side, a word is accepted if its rest is accepted from the pair of successors. -/
theorem acceptsSideBySide_cons {acceptance : Acceptance} {p : StatePair} {a : Symbol} {w : Word} :
    acceptsSideBySide L R acceptance p (a :: w) =
      (StatePair.all (L.successor? p.left a).toList (R.successor? p.right a).toList).any fun q =>
        acceptsSideBySide L R acceptance q w := by
  simp only [acceptsSideBySide, runFrom_cons]
  cases L.successor? p.left a with
  | none => rfl
  | some l =>
    cases R.successor? p.right a with
    | none => cases hl : L.runFrom l w <;> simp [StatePair.all, hl]
    | some r => simp [StatePair.all]

/-- A symbol leads from a pair to one pair at most. -/
theorem eq_of_mem_all_successor? (p : StatePair) (a : Symbol) :
    ∀ q ∈ StatePair.all (L.successor? p.left a).toList (R.successor? p.right a).toList,
    ∀ r ∈ StatePair.all (L.successor? p.left a).toList (R.successor? p.right a).toList, q = r := by
  intro q hq r hr
  obtain ⟨l, k⟩ := q
  obtain ⟨l', k'⟩ := r
  simp only [StatePair.mem_all, Option.mem_toList] at hq hr
  obtain rfl := Option.some.inj (hq.1.symm.trans hr.1)
  obtain rfl := Option.some.inj (hq.2.symm.trans hr.2)
  rfl

/-- The automaton of pairs accepts what is accepted side by side. -/
theorem accepts_pairs (hL : L.WellFormed) (hR : R.WellFormed) {acceptance : Acceptance} {w : Word} :
    (pairs L R acceptance).accepts w =
      acceptsSideBySide L R acceptance ⟨L.initial, R.initial⟩ w := by
  have hexplores := explores_pairs hL hR
  rw [accepts_eq_acceptsFrom]
  refine hexplores.acceptsFrom_toDFA (fun p _ q _ hname => StatePair.name_injective hname)
    eq_of_mem_all_successor? ?_ (fun p => ?_) (fun p a w => acceptsSideBySide_cons)
    hexplores.first_mem w
  · intro p a _ ha
    rw [Std.ExtTreeSet.mem_toList] at ha
    rw [successor?_of_foreign hL ha]
    rfl
  · rfl

/-- For complete automata with the same alphabet, the automaton of pairs accepts a word exactly if
what the two say of it counts as accepting. -/
theorem accepts_pairs_of_isComplete (hL : L.WellFormed) (hR : R.WellFormed)
    (hLcomplete : L.isComplete = true) (hRcomplete : R.isComplete = true)
    (halphabet : L.alphabet = R.alphabet) {acceptance : Acceptance} {w : Word} :
    (pairs L R acceptance).accepts w = acceptance.combine (L.accepts w) (R.accepts w) := by
  have hsame : (L.runFrom L.initial w).isSome = (R.runFrom R.initial w).isSome := by
    rw [Bool.eq_iff_iff, isSome_runFrom_iff hL hLcomplete hL.initial_mem,
      isSome_runFrom_iff hR hRcomplete hR.initial_mem, halphabet]
  rw [accepts_pairs hL hR, acceptsSideBySide, accepts_eq_acceptsFrom, accepts_eq_acceptsFrom,
    acceptsFrom, acceptsFrom]
  cases hl : L.runFrom L.initial w with
  | none =>
    cases hr : R.runFrom R.initial w with
    | none => exact acceptance.combine_false.symm
    | some r => simp [hl, hr] at hsame
  | some l =>
    cases hr : R.runFrom R.initial w with
    | none => simp [hl, hr] at hsame
    | some r => rfl

end DFA

namespace NFA

variable {L R : NFA}

/-- The successors in a well-formed nondeterministic automaton are states of it. -/
theorem mem_of_mem_successors {N : NFA} (hN : N.WellFormed) (p : State) (a : Symbol) :
    ∀ q ∈ (N.successors p a).toList, q ∈ N.states :=
  fun q hq => hN.target_mem p (.symbol a) q (moves_symbol.mpr (Std.ExtTreeSet.mem_toList.mp hq))

/-- The pairs of states of two automata are found with the arcs between them. -/
theorem explores_pairs (hL : L.WellFormed) (hR : R.WellFormed) :
    Search.Explores L.alphabet.toList
      (fun p a => StatePair.all (L.successors p.left a).toList (R.successors p.right a).toList)
      (StatePair.Within L.states R.states) ⟨L.initial, R.initial⟩
      (Id.run (Search.run Meter.free L.alphabet.toList
        (fun p a => StatePair.all (L.successors p.left a).toList (R.successors p.right a).toList)
        (L.states.size * R.states.size) ⟨L.initial, R.initial⟩)) :=
  StatePair.explores ⟨hL.initial_mem, hR.initial_mem⟩ (mem_of_mem_successors hL)
    (mem_of_mem_successors hR) _

/-- The automaton of pairs is well-formed. -/
theorem wellFormed_pairs (hL : L.WellFormed) (hR : R.WellFormed) {acceptance : Acceptance} :
    (pairs L R acceptance).WellFormed :=
  (explores_pairs hL hR).wellFormed_toNFA fun _ => Std.ExtTreeSet.mem_toList.mp

end NFA

end RegularLanguages
