import RegularLanguages.Proofs.Kinds

/-!
# Lists of transitions

Every table lists its transitions strictly ascending by source, label and target. A strictly
ascending list is determined by its members, so automata with the same parts, of whatever kinds,
list the same transitions.
-/

namespace RegularLanguages

instance : Std.TransOrd Edge :=
  inferInstanceAs (Std.TransCmp (compareLex (compareOn Edge.source)
    (compareLex (compareOn Edge.label) (compareOn Edge.target))))

/-- By source, then label, then target. -/
theorem Edge.compare_eq_lt_iff {e e' : Edge} : compare e e' = .lt ↔
    compare e.source e'.source = .lt ∨ (e.source = e'.source ∧
      (compare e.label e'.label = .lt ∨
        (e.label = e'.label ∧ compare e.target e'.target = .lt))) := by
  have hcompare : compare e e' = ((compare e.source e'.source).then
      ((compare e.label e'.label).then (compare e.target e'.target))) := rfl
  simp only [hcompare, Ordering.then_eq_lt, Std.compare_eq_iff_eq]

/-- A kind of table that lists its transitions strictly ascending. -/
class OrderedTransitionTable (T : Type) [TransitionTable T] : Prop where
  ordered_edges : ∀ t : T,
    (TransitionTable.edges t).Pairwise fun e e' => compare e e' = .lt

instance : OrderedTransitionTable DeterministicTable where
  ordered_edges t := by
    refine List.pairwise_map.mpr (t.rows.ordered_entries.imp fun hbefore => ?_)
    exact Edge.compare_eq_lt_iff.mpr (hbefore.imp_right fun h => ⟨h.1, .inl h.2⟩)

instance : OrderedTransitionTable NondeterministicTable where
  ordered_edges t := by
    refine List.pairwise_map.mpr (t.ordered_triples.imp fun hbefore => ?_)
    refine Edge.compare_eq_lt_iff.mpr (hbefore.imp_right fun h => ⟨h.1, h.2.imp_right fun h => ?_⟩)
    exact ⟨congrArg Label.symbol h.1, h.2⟩

instance : OrderedTransitionTable EpsilonTable where
  ordered_edges t :=
    List.pairwise_map.mpr (t.ordered_triples.imp Edge.compare_eq_lt_iff.mpr)

namespace Automaton

variable {T U : Type} [TransitionTable T] [TransitionTable U] [OrderedTransitionTable T]
  [OrderedTransitionTable U] {A : Automaton T} {B : Automaton U}

/-- Automata with the same moves list the same transitions. -/
theorem SameParts.edges_eq (h : SameParts A B) : A.edges = B.edges :=
  FiniteSet.eq_of_ordered (OrderedTransitionTable.ordered_edges A.transitions)
    (OrderedTransitionTable.ordered_edges B.transitions)
    fun e => h.moves_iff e.source e.label e.target

end Automaton

end RegularLanguages
