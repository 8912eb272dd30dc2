import RegularLanguages.Proofs.Kinds

/-!
# Deterministic automata of any kind

An automaton is deterministic if it has no empty move and no two moves from one state over one
symbol. Exactly then it is read as an automaton of the deterministic kind: the transitions are
listed once each, so that no place of the table is asked for twice.
-/

namespace RegularLanguages

namespace Automaton

variable {T U : Type} [TransitionTable T] [TransitionTable U] {A : Automaton T} {B : Automaton U}

/-- No move is empty, and a symbol leads from a state to one state at most. -/
structure IsDeterministic (A : Automaton T) : Prop where
  not_moves_epsilon : ∀ p q, ¬A.Moves p .epsilon q
  moves_unique : ∀ p a q r, A.Moves p (.symbol a) q → A.Moves p (.symbol a) r → q = r

/-- The parts decide whether an automaton is deterministic. -/
theorem SameParts.isDeterministic (h : SameParts A B) (hA : A.IsDeterministic) :
    B.IsDeterministic where
  not_moves_epsilon p q hmove := hA.not_moves_epsilon p q ((h.moves_iff p _ q).mpr hmove)
  moves_unique p a q r hq hr :=
    hA.moves_unique p a q r ((h.moves_iff p _ q).mpr hq) ((h.moves_iff p _ r).mpr hr)

end Automaton

open Automaton (SameParts)

/-- The kind of automata with one successor at most has deterministic automata only. -/
theorem DFA.isDeterministic (D : DFA) : D.IsDeterministic where
  not_moves_epsilon _ _ := not_moves_epsilon
  moves_unique _ _ _ _ hq hr :=
    Option.some.inj ((moves_symbol.mp hq).symm.trans (moves_symbol.mp hr))

namespace NFA

variable {N : NFA}

/-- Transitions from different places, all of which are free, fit into a table. -/
theorem exists_singleSuccessors? {ts : List (State × Symbol × State)} {t : DeterministicTable}
    (hfree : ∀ p a q, (p, a, q) ∈ ts → t.successor? p a = none)
    (hplaces : ts.Pairwise fun x y => ¬(x.1 = y.1 ∧ x.2.1 = y.2.1)) :
    ∃ u, singleSuccessors? t ts = some u := by
  induction ts generalizing t with
  | nil => exact ⟨t, rfl⟩
  | cons triple ts ih =>
    obtain ⟨p, a, q⟩ := triple
    obtain ⟨hother, hplaces⟩ := List.pairwise_cons.mp hplaces
    simp only [singleSuccessors?, hfree p a q List.mem_cons_self]
    refine ih (fun p' a' q' htriple => ?_) hplaces
    have hother : ¬(p' = p ∧ a' = a) := fun h => hother _ htriple (h.imp Eq.symm Eq.symm)
    rw [DeterministicTable.successor?_put, if_neg hother]
    exact hfree p' a' q' (List.mem_cons_of_mem _ htriple)

/-- A deterministic automaton is read as one of the deterministic kind. -/
theorem exists_asDeterministic? (h : N.IsDeterministic) : ∃ D, N.asDeterministic? = some D := by
  have hplaces : N.transitions.triples.Pairwise fun x y => ¬(x.1 = y.1 ∧ x.2.1 = y.2.1) := by
    refine N.transitions.nodup_triples.imp_of_mem fun {x y} hx hy hne hsame => ?_
    obtain ⟨p, a, q⟩ := x
    obtain ⟨p', a', r⟩ := y
    obtain ⟨rfl, rfl⟩ := hsame
    obtain rfl := h.moves_unique p a q r (moves_symbol.mpr (EdgeTable.mem_triples.mp hx))
      (moves_symbol.mpr (EdgeTable.mem_triples.mp hy))
    exact hne rfl
  obtain ⟨table, htable⟩ :=
    exists_singleSuccessors? (fun _ _ _ _ => DeterministicTable.successor?_empty _ _) hplaces
  refine ⟨⟨N.states, N.alphabet, table, N.initial, N.finals⟩, ?_⟩
  rw [asDeterministic?, htable]
  rfl

end NFA

/-- A deterministic automaton with empty moves allowed is read as one of the deterministic kind. -/
theorem EpsilonNFA.exists_asDeterministic? {E : EpsilonNFA} (hE : E.WellFormed)
    (h : E.IsDeterministic) : ∃ D, E.asDeterministic? = some D := by
  have hnone : ¬E.hasEpsilonMoves = true := by
    intro hmoves
    obtain ⟨p, q, hmove⟩ := hasEpsilonMoves_iff.mp hmoves
    exact h.not_moves_epsilon p q hmove
  have hparts := sameParts_toNFA hE h.not_moves_epsilon
  rw [asDeterministic?, if_neg hnone]
  exact NFA.exists_asDeterministic? (hparts.isDeterministic h)

namespace AnyAutomaton

/-- No move is empty, and a symbol leads from a state to one state at most. -/
def IsDeterministic : AnyAutomaton → Prop
  | dfa A | nfa A | epsilonNFA A => A.IsDeterministic

variable {A : AnyAutomaton}

/-- Only deterministic automata have the parts of one of the deterministic kind. -/
theorem ReadAs.isDeterministic {D : DFA} (h : A.ReadAs D) : A.IsDeterministic := by
  cases A with
  | dfa A | nfa A | epsilonNFA A => exact (SameParts.symm h).isDeterministic D.isDeterministic

/-- A deterministic automaton of any kind is read as one of the deterministic kind with the same
parts. -/
theorem IsDeterministic.exists_asDeterministic? (hA : A.WellFormed) (h : A.IsDeterministic) :
    ∃ D, A.asDeterministic? = some D ∧ A.ReadAs D := by
  have hsome : ∃ D, A.asDeterministic? = some D := by
    cases A with
    | dfa D => exact ⟨D, rfl⟩
    | nfa N => exact NFA.exists_asDeterministic? h
    | epsilonNFA E => exact EpsilonNFA.exists_asDeterministic? hA h
  obtain ⟨D, hD⟩ := hsome
  exact ⟨D, hD, readAs_of_asDeterministic? hA hD⟩

/-- No other automaton is read as one of the deterministic kind. -/
theorem asDeterministic?_eq_none (hA : A.WellFormed) (h : ¬A.IsDeterministic) :
    A.asDeterministic? = none := by
  rw [Option.eq_none_iff_forall_ne_some]
  exact fun D hD => h (readAs_of_asDeterministic? hA hD).isDeterministic

end AnyAutomaton

end RegularLanguages
