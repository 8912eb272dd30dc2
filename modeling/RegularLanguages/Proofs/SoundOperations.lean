import RegularLanguages.Proofs.Complements
import RegularLanguages.Proofs.Homomorphisms
import RegularLanguages.Proofs.Joins
import RegularLanguages.Proofs.ReachablePairs
import RegularLanguages.Proofs.Soundness

/-!
# Operations make sound automata

A product is well-formed, and its table is made from a list of transitions. The other operations
join the tables of sound automata by empty moves between declared states, or change the symbols of
their transitions.
-/

namespace RegularLanguages

/-! ## Products -/

namespace DFA

variable {L R : DFA}

/-- The pairs of states of sound deterministic automata make up a sound one. -/
theorem sound_pairs (hL : L.Sound) (hR : R.Sound) (acceptance : Acceptance) :
    (pairs L R acceptance).Sound where
  toWellFormed := wellFormed_pairs hL.toWellFormed hR.toWellFormed
  canonical := DeterministicTable.canonical_ofTriples _

/-- A product of sound deterministic automata is sound. -/
theorem sound_of_product (hL : L.Sound) (hR : R.Sound) {acceptance : Acceptance} {P : DFA}
    (h : L.product R acceptance = .ok P) : P.Sound := by
  obtain ⟨-, rfl⟩ := product_eq_ok_iff.mp h
  cases acceptance with
  | both => exact sound_pairs hL hR .both
  | either | leftOnly | exactlyOne => exact sound_pairs (sound_complete hL) (sound_complete hR) _

end DFA

namespace NFA

variable {L R : NFA}

/-- The pairs of states of sound nondeterministic automata make up a sound one. -/
theorem sound_pairs (hL : L.Sound) (hR : R.Sound) (acceptance : Acceptance) :
    (pairs L R acceptance).Sound where
  toWellFormed := wellFormed_pairs hL.toWellFormed hR.toWellFormed
  canonical := EdgeTable.canonical_ofTriples _

end NFA

variable {l r A : AnyAutomaton}

/-- A product of sound automata of any kind is sound. -/
theorem sound_of_cartesianProduct (hl : l.Sound) (hr : r.Sound) {acceptance : Acceptance} {N : NFA}
    (h : cartesianProduct l r acceptance = .ok N) : N.Sound := by
  unfold cartesianProduct at h
  split at h
  · contradiction
  · split at h
    · obtain rfl := Except.ok.inj h
      exact NFA.sound_pairs (AnyAutomaton.sound_toNFA hl) (AnyAutomaton.sound_toNFA hr) .both
    all_goals
      obtain ⟨P, hproduct, rfl⟩ := exists_of_map_eq_ok h
      exact DFA.sound_toNFA (DFA.sound_of_product (AnyAutomaton.sound_toDFA hl)
        (AnyAutomaton.sound_toDFA hr) hproduct)

/-! ## Operations that join automata by empty moves -/

namespace EpsilonNFA

variable {L R E : EpsilonNFA} {t u : EpsilonTable} {p q : State} {l : Label}

/-- Other names for the states keep an automaton with empty moves sound. -/
theorem sound_rename (hE : E.Sound) (f : State → State) :
    Automaton.Sound (Automaton.rename E f) where
  toWellFormed := by
    have himage {q : State} (hq : q ∈ E.states) : f q ∈ (Automaton.rename E f).states :=
      StateSet.mem_image.mpr ⟨q, hq, rfl⟩
    refine wellFormed_of_successors (himage hE.initial_mem) ?_ ?_
    · intro q hq
      obtain ⟨p, hp, rfl⟩ := StateSet.mem_image.mp hq
      exact himage (hE.finals_subset p hp)
    · intro p l q hq
      obtain ⟨p', q', hq', rfl, rfl⟩ := EdgeTable.mem_successors_rename.mp hq
      obtain ⟨hp, hl, hq⟩ := of_mem_successors hE.toWellFormed hq'
      exact ⟨himage hp, hl, himage hq⟩
  canonical := EdgeTable.canonical_ofTriples _

/-- A sound automaton stays sound with a tag in front of the names of its states. -/
theorem sound_tagged (hE : E.Sound) (tag : String) : (E.tagged tag).Sound := sound_rename hE _

/-- What the transitions of two automata mention is declared by the states and symbols of both. -/
theorem of_mem_successors_merge {states : StateSet} (hL : L.WellFormed) (hR : R.WellFormed)
    (hstates : ∀ q, q ∈ L.states ∨ q ∈ R.states → q ∈ states)
    (h : q ∈ (merge L.transitions R.transitions).successors p l) :
    p ∈ states ∧ (∀ a, l = .symbol a → a ∈ L.alphabet ∪ R.alphabet) ∧ q ∈ states := by
  rcases mem_successors_merge.mp h with h | h
  · obtain ⟨hp, hl, hq⟩ := of_mem_successors hR h
    exact ⟨hstates p (.inr hp), fun a ha => Std.ExtTreeSet.mem_union_iff.mpr (.inr (hl a ha)),
      hstates q (.inr hq)⟩
  · obtain ⟨hp, hl, hq⟩ := of_mem_successors hL h
    exact ⟨hstates p (.inl hp), fun a ha => Std.ExtTreeSet.mem_union_iff.mpr (.inl (hl a ha)),
      hstates q (.inl hq)⟩

/-- An automaton for either of two languages is sound if those for the languages are. -/
theorem sound_alternatives (hL : L.Sound) (hR : R.Sound) (initial : State) :
    (alternatives initial L R).Sound where
  toWellFormed := by
    have hstates : ∀ q, q ∈ L.states ∨ q ∈ R.states → q ∈ (alternatives initial L R).states := by
      intro q hq
      exact FiniteSet.mem_insert.mpr (.inr (Std.ExtTreeSet.mem_union_iff.mpr hq))
    have hinitial : initial ∈ (alternatives initial L R).states :=
      FiniteSet.mem_insert.mpr (.inl rfl)
    refine wellFormed_of_successors hinitial ?_ ?_
    · intro q hq
      exact hstates q ((Std.ExtTreeSet.mem_union_iff.mp hq).imp (hL.finals_subset q)
        (hR.finals_subset q))
    · intro p l q hq
      rcases (EdgeTable.mem_successors_add _).mp hq with ⟨rfl, rfl, rfl⟩ | hq
      · exact ⟨hinitial, by simp, hstates _ (.inr hR.initial_mem)⟩
      rcases (EdgeTable.mem_successors_add _).mp hq with ⟨rfl, rfl, rfl⟩ | hq
      · exact ⟨hinitial, by simp, hstates _ (.inl hL.initial_mem)⟩
      exact of_mem_successors_merge hL.toWellFormed hR.toWellFormed hstates hq
  canonical := ((EdgeTable.Canonical.addAll hL.canonical _).add _ _ _).add _ _ _

/-- An automaton for one language after another is sound if those for the languages are. -/
theorem sound_sequence (hL : L.Sound) (hR : R.Sound) (initial : State) :
    (sequence initial L R).Sound where
  toWellFormed := by
    have hstates : ∀ q, q ∈ L.states ∨ q ∈ R.states → q ∈ (sequence initial L R).states := by
      intro q hq
      exact FiniteSet.mem_insert.mpr (.inr (Std.ExtTreeSet.mem_union_iff.mpr hq))
    have hinitial : initial ∈ (sequence initial L R).states := FiniteSet.mem_insert.mpr (.inl rfl)
    refine wellFormed_of_successors hinitial ?_ ?_
    · exact fun q hq => hstates q (.inr (hR.finals_subset q hq))
    · intro p l q hq
      rcases mem_successors_moves.mp hq with ⟨hp, rfl, rfl⟩ | hq
      · exact ⟨hstates p (.inl (hL.finals_subset p hp)), by simp, hstates _ (.inr hR.initial_mem)⟩
      rcases (EdgeTable.mem_successors_add _).mp hq with ⟨rfl, rfl, rfl⟩ | hq
      · exact ⟨hinitial, by simp, hstates _ (.inl hL.initial_mem)⟩
      exact of_mem_successors_merge hL.toWellFormed hR.toWellFormed hstates hq
  canonical :=
    ((EdgeTable.Canonical.addAll hL.canonical _).add _ _ _).addAll _

/-- An automaton for a repeated language is sound if that for the language is. -/
theorem sound_repetition (hE : E.Sound) (initial final : State) :
    (repetition initial final E).Sound where
  toWellFormed := by
    have hstates : ∀ q ∈ E.states, q ∈ (repetition initial final E).states := by
      intro q hq
      exact FiniteSet.mem_insert.mpr (.inr (FiniteSet.mem_insert.mpr (.inr hq)))
    have hinitial : initial ∈ (repetition initial final E).states :=
      FiniteSet.mem_insert.mpr (.inr (FiniteSet.mem_insert.mpr (.inl rfl)))
    have hfinal : final ∈ (repetition initial final E).states := FiniteSet.mem_insert.mpr (.inl rfl)
    refine wellFormed_of_successors hinitial ?_ ?_
    · intro q hq
      rw [StateSet.mem_single.mp hq]
      exact hfinal
    · intro p l q hq
      rcases mem_successors_moves.mp hq with ⟨hp, rfl, rfl⟩ | hq
      · exact ⟨hstates p (hE.finals_subset p hp), by simp, hfinal⟩
      rcases mem_successors_moves.mp hq with ⟨hp, rfl, rfl⟩ | hq
      · exact ⟨hstates p (hE.finals_subset p hp), by simp, hstates _ hE.initial_mem⟩
      rcases (EdgeTable.mem_successors_add _).mp hq with ⟨rfl, rfl, rfl⟩ | hq
      · exact ⟨hinitial, by simp, hfinal⟩
      rcases (EdgeTable.mem_successors_add _).mp hq with ⟨rfl, rfl, rfl⟩ | hq
      · exact ⟨hinitial, by simp, hstates _ hE.initial_mem⟩
      obtain ⟨hp, hl, hq⟩ := of_mem_successors hE.toWellFormed hq
      exact ⟨hstates p hp, hl, hstates q hq⟩
  canonical :=
    (((EdgeTable.Canonical.add hE.canonical _ _ _).add _ _ _).addAll _).addAll _

/-- The automaton of the empty word is sound. -/
theorem sound_emptyWord (alphabet : Alphabet) (q : State) : (emptyWord alphabet q).Sound where
  toWellFormed := by
    refine wellFormed_of_successors (StateSet.mem_single.mpr rfl) (fun _ => id) fun h => ?_
    simp [emptyWord, successors] at h
  canonical := EdgeTable.canonical_empty

end EpsilonNFA

/-- A union of sound automata is sound. -/
theorem sound_of_union (hl : l.Sound) (hr : r.Sound) {E : EpsilonNFA} (h : union l r = .ok E) :
    E.Sound := by
  unfold union at h
  split at h
  · contradiction
  · obtain rfl := Except.ok.inj h
    exact EpsilonNFA.sound_alternatives
      (EpsilonNFA.sound_tagged (AnyAutomaton.sound_toEpsilonNFA hl) _)
      (EpsilonNFA.sound_tagged (AnyAutomaton.sound_toEpsilonNFA hr) _) _

/-- A concatenation of sound automata is sound. -/
theorem sound_concatenation (hl : l.Sound) (hr : r.Sound) : (concatenation l r).Sound :=
  EpsilonNFA.sound_sequence (EpsilonNFA.sound_tagged (AnyAutomaton.sound_toEpsilonNFA hl) _)
    (EpsilonNFA.sound_tagged (AnyAutomaton.sound_toEpsilonNFA hr) _) _

/-- The repetition of a sound automaton is sound. -/
theorem sound_kleeneStar (hA : A.Sound) : (kleeneStar A).Sound :=
  EpsilonNFA.sound_repetition (AnyAutomaton.sound_toEpsilonNFA hA) _ _

/-- A positive power of a sound automaton is sound, by induction on the exponent. -/
theorem sound_positivePower (hA : A.Sound) (n : Nat) : (positivePower A n).Sound := by
  induction n with
  | zero => exact AnyAutomaton.sound_toEpsilonNFA hA
  | succ n ih => exact sound_concatenation (l := .epsilonNFA (positivePower A n)) ih hA

/-- Every power of a sound automaton is sound. -/
theorem sound_of_power (hA : A.Sound) {n : Int} {E : EpsilonNFA} (h : power A n = .ok E) :
    E.Sound := by
  unfold power at h
  split at h
  · contradiction
  · obtain rfl := Except.ok.inj h
    exact EpsilonNFA.sound_emptyWord _ _
  · obtain rfl := Except.ok.inj h
    exact sound_positivePower hA _

/-! ## Operations made of products and complements -/

/-- The complement of a sound automaton is sound. -/
theorem sound_of_complement (hA : A.Sound) {D : DFA} (h : complement A = .ok D) : D.Sound := by
  obtain ⟨C, hread, rfl⟩ := complement_eq_ok_iff.mp h
  exact DFA.sound_complement (AnyAutomaton.sound_of_asDeterministic? hA hread)

/-- The difference of sound automata is sound. -/
theorem sound_of_difference (hl : l.Sound) (hr : r.Sound) {N : NFA} (h : difference l r = .ok N) :
    N.Sound := by
  unfold difference at h
  split at h
  · contradiction
  · split at h
    · contradiction
    · rename_i C hcomplement
      exact sound_of_cartesianProduct (r := .dfa C) hl (sound_of_complement hr hcomplement) h

/-- The symmetric difference of sound automata is sound. -/
theorem sound_of_symmetricDifference (hl : l.Sound) (hr : r.Sound) {E : EpsilonNFA}
    (h : symmetricDifference l r = .ok E) : E.Sound := by
  unfold symmetricDifference at h
  split at h
  · contradiction
  · rename_i onlyLeft hleft
    split at h
    · contradiction
    · rename_i onlyRight hright
      exact sound_of_union (l := .nfa onlyLeft) (r := .nfa onlyRight)
        (sound_of_difference hl hr hleft) (sound_of_difference hr hl hright) h

/-! ## Operations that change symbols -/

namespace NFA

variable {N : NFA}

/-- Putting other symbols in place of symbols keeps an automaton sound. -/
theorem sound_mapSymbols (hN : N.Sound) (h : SymbolMap) : (N.mapSymbols h).Sound where
  toWellFormed := by
    refine wellFormed_of_successors hN.initial_mem hN.finals_subset fun {p b q} hq => ?_
    obtain ⟨a, hb, hq⟩ := mem_successors_mapSymbols.mp hq
    have hmove := moves_symbol.mpr hq
    refine ⟨hN.source_mem p _ q hmove, ?_, hN.target_mem p _ q hmove⟩
    exact mem_alphabet_mapSymbols.mpr ⟨a, hN.symbol_mem p a q hmove, hb⟩
  canonical := EdgeTable.canonical_ofTriples _

/-- Reading symbols through a mapping keeps an automaton sound. -/
theorem sound_readThrough (hN : N.Sound) (h : SymbolMap) : (N.readThrough h).Sound where
  toWellFormed := by
    refine wellFormed_of_successors hN.initial_mem hN.finals_subset fun {p a q} hq => ?_
    obtain ⟨b, hb, hq⟩ := (mem_successors_readThrough hN.toWellFormed).mp hq
    have hmove := moves_symbol.mpr hq
    refine ⟨hN.source_mem p _ q hmove, mem_alphabet_readThrough.mpr ?_, hN.target_mem p _ q hmove⟩
    exact Std.ExtTreeMap.mem_iff_isSome_getElem?.mpr (Option.isSome_of_mem hb)
  canonical := EdgeTable.canonical_ofTriples _

end NFA

/-- The image of a sound automaton under a homomorphism is sound. -/
theorem sound_of_homomorphism (hA : A.Sound) {h : SymbolMap} {N : NFA}
    (hmade : homomorphism A h = .ok N) : N.Sound := by
  obtain ⟨-, rfl⟩ := homomorphism_eq_ok_iff.mp hmade
  exact NFA.sound_mapSymbols (AnyAutomaton.sound_toNFA hA) h

/-- The preimage of a sound automaton under a homomorphism is sound. -/
theorem sound_of_inverseHomomorphism (hA : A.Sound) {h : SymbolMap} {N : NFA}
    (hmade : inverseHomomorphism A h = .ok N) : N.Sound := by
  obtain ⟨-, rfl⟩ := inverseHomomorphism_eq_ok_iff.mp hmade
  exact NFA.sound_readThrough (AnyAutomaton.sound_toNFA hA) h

end RegularLanguages
