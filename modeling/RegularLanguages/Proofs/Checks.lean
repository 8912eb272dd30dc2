import RegularLanguages.Proofs.Canonical

/-!
# What the checks let through

The checks refuse only what is at fault. If there is a sound automaton with the given parts, whose
alphabet does not have the character that stands for the empty move, then the parts pass, in
whatever order and however often they are listed, and what comes out is this automaton.
-/

namespace RegularLanguages

/-- A set of states with a member is not empty. -/
theorem StateSet.isEmpty_eq_false_of_mem {states : StateSet} {q : State} (h : q ∈ states) :
    states.isEmpty = false := by
  rw [Std.ExtTreeSet.isEmpty_eq_false_iff]
  intro hempty
  simp [hempty] at h

/-- A kind of table that refuses a transition only if no table of the kind has it together with
those that are there. If the kind is the deterministic one, tables are deterministic. -/
class ExactTransitionTable (T : Type) [TransitionTable T] : Prop where
  exists_insert : ∀ {t u : T} {e : Edge}, e ∈ TransitionTable.edges u →
    (∀ e' ∈ TransitionTable.edges t, e' ∈ TransitionTable.edges u) →
      ∃ v, TransitionTable.insert t e = .ok v
  target_unique : TransitionTable.kind T = .dfa → ∀ {t : T} {p q r : State} {l : Label},
    ⟨p, l, q⟩ ∈ TransitionTable.edges t → ⟨p, l, r⟩ ∈ TransitionTable.edges t → q = r

instance : ExactTransitionTable DeterministicTable where
  exists_insert {t u e} he ht := by
    obtain ⟨p, l, q⟩ := e
    obtain ⟨a, rfl, hq⟩ := DeterministicTable.mem_edges.mp he
    simp only [TransitionTable.insert, DeterministicTable.insert]
    cases hsuccessor : t.successor? p a with
    | none => exact ⟨_, rfl⟩
    | some r =>
      have hedge := ht ⟨p, .symbol a, r⟩ (DeterministicTable.mem_edges.mpr ⟨a, rfl, hsuccessor⟩)
      obtain ⟨b, hb, hr⟩ := DeterministicTable.mem_edges.mp hedge
      obtain rfl := Label.symbol.inj hb
      obtain rfl := Option.some.inj (hr.symm.trans hq)
      simp
  target_unique _ {t p q r l} hq hr := by
    obtain ⟨a, rfl, ha⟩ := DeterministicTable.mem_edges.mp hq
    obtain ⟨b, hb, hr⟩ := DeterministicTable.mem_edges.mp hr
    obtain rfl := Label.symbol.inj hb
    exact Option.some.inj (ha.symm.trans hr)

instance : ExactTransitionTable NondeterministicTable where
  exists_insert {t u e} he _ := by
    obtain ⟨p, l, q⟩ := e
    obtain ⟨a, rfl, -⟩ := NondeterministicTable.mem_edges.mp he
    exact ⟨_, rfl⟩
  target_unique h := by contradiction

instance : ExactTransitionTable EpsilonTable where
  exists_insert _ _ := ⟨_, rfl⟩
  target_unique h := by contradiction

namespace Automaton

variable {T : Type} [TransitionTable T]

/-- Transitions without fault are added one by one if some table has all of them together with those
that are there. -/
theorem exists_insertAll [ExactTransitionTable T] [LawfulTransitionTable T] {states : StateSet}
    {alphabet : Alphabet} {t u : T} {es : List Edge}
    (hes : ∀ e ∈ es, e ∈ TransitionTable.edges u ∧ edgeFault? states alphabet e = none)
    (ht : ∀ e ∈ TransitionTable.edges t, e ∈ TransitionTable.edges u) :
    ∃ v, insertAll states alphabet t es = .ok v := by
  induction es generalizing t with
  | nil => exact ⟨t, rfl⟩
  | cons e es ih =>
    obtain ⟨hedge, hfault⟩ := hes e List.mem_cons_self
    obtain ⟨t', hinsert⟩ := ExactTransitionTable.exists_insert hedge ht
    simp only [insertAll, hfault, hinsert]
    apply ih fun e' he' => hes e' (List.mem_cons_of_mem e he')
    intro e' he'
    rcases (LawfulTransitionTable.mem_edges_insert hinsert e').mp he' with rfl | he'
    · exact hedge
    · exact ht e' he'

/-- An alphabet with the character that stands for the empty move is refused, unless there is not
even a state. -/
theorem ofParts_eq_error {states : List State} {alphabet : Alphabet} {es : List Edge}
    {initial : State} {finals : List State} (hstate : ∃ q, q ∈ states)
    (hepsilon : epsilonSymbol ∈ alphabet) :
    ofParts (T := T) states alphabet es initial finals =
      .error ⟨TransitionTable.kind T, .epsilonInAlphabet⟩ := by
  obtain ⟨q, hq⟩ := hstate
  have hnonempty : (StateSet.ofList states).isEmpty = false :=
    StateSet.isEmpty_eq_false_of_mem (StateSet.mem_ofList.mpr hq)
  simp [ofParts, checked, hnonempty, hepsilon]

/-- What the checks let through has an alphabet without the character that stands for the empty
move. -/
theorem epsilonSymbol_notMem_of_ofParts {states : List State} {alphabet : Alphabet} {es : List Edge}
    {initial : State} {finals : List State} {A : Automaton T}
    (h : ofParts states alphabet es initial finals = .ok A) : epsilonSymbol ∉ A.alphabet := by
  obtain ⟨-, hepsilon, -, -, -, -, rfl⟩ := checked_eq_ok_iff.mp (ofParts_eq_ok_iff.mp h)
  exact hepsilon

/-- The parts of a sound automaton make this automaton. -/
theorem Sound.ofParts_eq_ok [CanonicalTable T] [LawfulTransitionTable T] [ExactTransitionTable T]
    {A : Automaton T} (hA : A.Sound) (hepsilon : epsilonSymbol ∉ A.alphabet)
    {states finals : List State} {es : List Edge} (hstates : StateSet.ofList states = A.states)
    (hes : ∀ e, e ∈ es ↔ e ∈ A.edges) (hfinals : StateSet.ofList finals = A.finals) :
    ofParts states A.alphabet es A.initial finals = .ok A := by
  have hfault (e : Edge) (he : e ∈ A.edges) : edgeFault? A.states A.alphabet e = none := by
    refine edgeFault?_eq_none_iff.mpr ⟨hA.source_mem _ _ _ he, hA.target_mem _ _ _ he, ?_⟩
    exact fun a ha => hA.symbol_mem e.source a e.target (ha ▸ he)
  have hnothing (e : Edge) (he : e ∈ TransitionTable.edges (TransitionTable.empty : T)) :
      e ∈ TransitionTable.edges A.transitions :=
    (LawfulTransitionTable.notMem_edges_empty e he).elim
  obtain ⟨table, htable⟩ :
      ∃ table : T, insertAll A.states A.alphabet TransitionTable.empty es = .ok table :=
    exists_insertAll (fun e he => ⟨(hes e).mp he, hfault e ((hes e).mp he)⟩) hnothing
  -- The tables have the same transitions, and there is only one way to store these.
  have hsame : table = A.transitions := by
    obtain ⟨hcanonical, hedges, -⟩ := of_insertAll_eq_ok htable CanonicalTable.canonical_empty
    refine CanonicalTable.eq_of_edges hcanonical hA.canonical fun e => ?_
    rw [hedges, hes, or_iff_left (LawfulTransitionTable.notMem_edges_empty e)]
    rfl
  rw [ofParts_eq_ok_iff, hstates]
  refine checked_eq_ok_iff.mpr ⟨StateSet.isEmpty_eq_false_of_mem hA.initial_mem, hepsilon,
    hA.initial_mem, fun q hq => ?_, table, htable, ?_⟩
  · exact hA.finals_subset q (hfinals ▸ StateSet.mem_ofList.mpr hq)
  · rw [hsame, hfinals]

end Automaton

end RegularLanguages
