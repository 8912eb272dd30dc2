import RegularLanguages.Proofs.Determinization
import RegularLanguages.Proofs.Minimality

/-!
# Conversions keep the language

Reading an automaton as one of another kind keeps its moves, its initial state and its final
states, and these decide what is recognized. Empty moves are removed by looking through them: what
is recognized from a state is the same before and after.
-/

namespace RegularLanguages

namespace Automaton

variable {T U : Type} [TransitionTable T] [TransitionTable U]

/-- Two automata, perhaps of different kinds, have the same parts. -/
structure SameParts (A : Automaton T) (B : Automaton U) : Prop where
  states_eq : A.states = B.states
  alphabet_eq : A.alphabet = B.alphabet
  moves_iff : ∀ p l q, A.Moves p l q ↔ B.Moves p l q
  initial_eq : A.initial = B.initial
  finals_eq : A.finals = B.finals

namespace SameParts

variable {A : Automaton T} {B : Automaton U}

/-- An automaton has the same parts as itself. -/
theorem refl (A : Automaton T) : SameParts A A :=
  ⟨rfl, rfl, fun _ _ _ => .rfl, rfl, rfl⟩

/-- Having the same parts is symmetric, whatever the kinds. -/
theorem symm (h : SameParts A B) : SameParts B A :=
  ⟨h.states_eq.symm, h.alphabet_eq.symm, fun p l q => (h.moves_iff p l q).symm, h.initial_eq.symm,
    h.finals_eq.symm⟩

/-- Having the same parts is transitive, whatever the kinds. -/
theorem trans {V : Type} [TransitionTable V] {C : Automaton V} (h : SameParts A B)
    (h' : SameParts B C) : SameParts A C :=
  ⟨h.states_eq.trans h'.states_eq, h.alphabet_eq.trans h'.alphabet_eq,
    fun p l q => (h.moves_iff p l q).trans (h'.moves_iff p l q), h.initial_eq.trans h'.initial_eq,
    h.finals_eq.trans h'.finals_eq⟩

/-- The parts decide whether an automaton is well-formed. -/
theorem wellFormed (h : SameParts A B) (hA : A.WellFormed) : B.WellFormed where
  initial_mem := h.initial_eq ▸ h.states_eq ▸ hA.initial_mem
  finals_subset q hq := h.states_eq ▸ hA.finals_subset q (h.finals_eq ▸ hq)
  source_mem p l q hmove := h.states_eq ▸ hA.source_mem p l q ((h.moves_iff p l q).mpr hmove)
  target_mem p l q hmove := h.states_eq ▸ hA.target_mem p l q ((h.moves_iff p l q).mpr hmove)
  symbol_mem p a q hmove := h.alphabet_eq ▸ hA.symbol_mem p a q ((h.moves_iff p _ q).mpr hmove)

/-- The parts decide what is recognized. -/
theorem recognizes_iff (h : SameParts A B) (w : Word) : A.Recognizes w ↔ B.Recognizes w := by
  rw [Recognizes, Recognizes, h.initial_eq, h.finals_eq]
  constructor
  · intro h
    obtain ⟨q, hq, htrace⟩ := h
    exact ⟨q, hq, htrace.mono fun p l q => (h.moves_iff p l q).mp⟩
  · intro h
    obtain ⟨q, hq, htrace⟩ := h
    exact ⟨q, hq, htrace.mono fun p l q => (h.moves_iff p l q).mpr⟩

end SameParts

end Automaton

open Automaton (SameParts)

/-- Transitions over symbols, put into a table with empty moves, are found under their symbols. -/
theorem EpsilonTable.mem_successors_ofSymbols {ts : List (State × Symbol × State)} {p q : State}
    {l : Label} :
    q ∈ (EdgeTable.ofTriples (ts.map fun (p, a, q) => (p, Label.symbol a, q))).successors p l ↔
      ∃ a, l = .symbol a ∧ (p, a, q) ∈ ts := by
  simp only [EdgeTable.mem_successors_ofTriples, List.mem_map, Prod.exists, Prod.mk.injEq]
  constructor
  · intro h
    obtain ⟨p, a, q, h, rfl, rfl, rfl⟩ := h
    exact ⟨a, rfl, h⟩
  · intro h
    obtain ⟨a, rfl, h⟩ := h
    exact ⟨p, a, q, h, rfl, rfl, rfl⟩

namespace DFA

/-- A deterministic automaton is read as a nondeterministic one with the same parts. -/
theorem sameParts_toNFA (D : DFA) : SameParts D D.toNFA := by
  refine ⟨rfl, rfl, fun p l q => ?_, rfl, rfl⟩
  rw [moves_iff, NFA.moves_iff]
  simp only [NFA.successors, toNFA, EdgeTable.mem_successors_ofTriples,
    DeterministicTable.mem_triples, successor?]

/-- Read as a nondeterministic automaton, an automaton accepts the same words. -/
theorem accepts_toNFA (D : DFA) (w : Word) : D.toNFA.accepts w = D.accepts w := by
  rw [Bool.eq_iff_iff, NFA.accepts_iff, accepts_iff, D.sameParts_toNFA.recognizes_iff]

/-- A deterministic automaton is read as one with empty moves with the same parts. -/
theorem sameParts_toEpsilonNFA (D : DFA) : SameParts D D.toEpsilonNFA := by
  refine ⟨rfl, rfl, fun p l q => ?_, rfl, rfl⟩
  rw [moves_iff, EpsilonNFA.moves_iff]
  simp only [EpsilonNFA.successors, toEpsilonNFA, EpsilonTable.mem_successors_ofSymbols,
    DeterministicTable.mem_triples, successor?]

end DFA

namespace NFA

/-- An automaton without empty moves is read as one that has none with the same parts. -/
theorem sameParts_toEpsilonNFA (N : NFA) : SameParts N N.toEpsilonNFA := by
  refine ⟨rfl, rfl, fun p l q => ?_, rfl, rfl⟩
  rw [moves_iff, EpsilonNFA.moves_iff]
  simp only [EpsilonNFA.successors, toEpsilonNFA, EpsilonTable.mem_successors_ofSymbols,
    EdgeTable.mem_triples, successors]

/-- If all transitions find their places free, the table has them besides those it had. -/
theorem successor?_of_singleSuccessors {ts : List (State × Symbol × State)}
    {t u : DeterministicTable} (h : singleSuccessors? t ts = some u) {p q : State} {a : Symbol} :
    u.successor? p a = some q ↔ (p, a, q) ∈ ts ∨ t.successor? p a = some q := by
  induction ts generalizing t with
  | nil =>
    obtain rfl := Option.some.inj h
    simp
  | cons triple ts ih =>
    obtain ⟨p', a', q'⟩ := triple
    cases hfree : t.successor? p' a' with
    | some r => simp [singleSuccessors?, hfree] at h
    | none =>
      simp only [singleSuccessors?, hfree] at h
      rw [ih h, DeterministicTable.successor?_put, List.mem_cons, Prod.mk.injEq, Prod.mk.injEq]
      by_cases hsame : p = p' ∧ a = a'
      · obtain ⟨rfl, rfl⟩ := hsame
        simp only [hfree, and_self, if_true, Option.some.injEq, true_and, reduceCtorEq, or_false]
        rw [or_comm, eq_comm]
      · rw [if_neg hsame]
        have hne : ¬(p = p' ∧ a = a' ∧ q = q') := fun ⟨hp, ha, _⟩ => hsame ⟨hp, ha⟩
        simp [hne]

/-- A nondeterministic automaton that is deterministic is read as one with the same parts. -/
theorem sameParts_of_asDeterministic? {N : NFA} {D : DFA} (h : N.asDeterministic? = some D) :
    SameParts N D := by
  obtain ⟨table, htable, rfl⟩ := Option.map_eq_some_iff.mp h
  refine ⟨rfl, rfl, fun p l q => ?_, rfl, rfl⟩
  rw [moves_iff, DFA.moves_iff]
  refine exists_congr fun a => and_congr_right fun _ => ?_
  rw [DFA.successor?, successor?_of_singleSuccessors htable, EdgeTable.mem_triples]
  simp [successors]

end NFA

namespace EpsilonNFA

variable {E : EpsilonNFA}

/-- A symbol leads where it leads after empty moves. -/
theorem mem_successors_toNFA (hE : E.WellFormed) {p q : State} {a : Symbol} :
    q ∈ E.toNFA.successors p a ↔
      p ∈ E.states ∧ ∃ r, Trace E.Moves p [] r ∧ q ∈ E.successors r (.symbol a) := by
  simp only [NFA.successors, toNFA, EdgeTable.mem_successors_ofTriples, List.mem_flatMap,
    triplesFrom, List.mem_map, Prod.mk.injEq, Std.ExtTreeSet.mem_toList, mem_step, mem_closure,
    StateSet.mem_single, exists_eq_left]
  constructor
  · intro h
    obtain ⟨p, hp, a, -, q, ⟨r, htrace, hq⟩, rfl, rfl, rfl⟩ := h
    exact ⟨hp, r, htrace, hq⟩
  · intro h
    obtain ⟨hp, r, htrace, hq⟩ := h
    exact ⟨p, hp, a, hE.symbol_mem r a q (moves_iff.mpr hq), q, ⟨r, htrace, hq⟩, rfl, rfl, rfl⟩

/-- A state is final if empty moves lead from it to a final state. -/
theorem mem_finals_toNFA {p : State} :
    p ∈ E.toNFA.finals ↔ p ∈ E.states ∧ ∃ q ∈ E.finals, Trace E.Moves p [] q := by
  simp only [toNFA, FiniteSet.mem_filter, Automaton.anyFinal_iff, mem_closure, StateSet.mem_single,
    exists_eq_left]
  refine and_congr_right fun _ => ⟨?_, ?_⟩
  · intro h
    obtain ⟨q, htrace, hq⟩ := h
    exact ⟨q, hq, htrace⟩
  · intro h
    obtain ⟨q, hq, htrace⟩ := h
    exact ⟨q, htrace, hq⟩

/-- Removing empty moves keeps an automaton well-formed. -/
theorem wellFormed_toNFA (hE : E.WellFormed) : E.toNFA.WellFormed := by
  have hmoves {p q : State} {l : Label} (h : E.toNFA.Moves p l q) : p ∈ E.states ∧
      ∃ a r, l = .symbol a ∧ E.Moves r (.symbol a) q := by
    obtain ⟨a, rfl, ha⟩ := NFA.moves_iff.mp h
    obtain ⟨hp, r, -, hq⟩ := (mem_successors_toNFA hE).mp ha
    exact ⟨hp, a, r, rfl, moves_iff.mpr hq⟩
  refine ⟨hE.initial_mem, fun q hq => (mem_finals_toNFA.mp hq).1, ?_, ?_, ?_⟩
  · exact fun p l q h => (hmoves h).1
  · intro p l q h
    obtain ⟨-, a, r, -, hq⟩ := hmoves h
    exact hE.target_mem r _ q hq
  · intro p b q h
    obtain ⟨-, a, r, hb, hq⟩ := hmoves h
    obtain rfl := Label.symbol.inj hb
    exact hE.symbol_mem r b q hq

/-- Without empty moves, the same words are recognized from every state. -/
theorem exists_trace_toNFA_iff (hE : E.WellFormed) {p : State} (hp : p ∈ E.states) (w : Word) :
    (∃ q ∈ E.toNFA.finals, Trace E.toNFA.Moves p w q) ↔ ∃ q ∈ E.finals, Trace E.Moves p w q := by
  induction w generalizing p with
  | nil =>
    simp only [NFA.trace_nil_iff, exists_eq_right', mem_finals_toNFA, hp, true_and]
  | cons a w ih =>
    have hstep (q : State) : Trace E.toNFA.Moves p (a :: w) q ↔
        ∃ r s, Trace E.Moves p [] r ∧ E.Moves r (.symbol a) s ∧ Trace E.toNFA.Moves s w q := by
      rw [NFA.trace_cons_iff]
      simp only [mem_successors_toNFA hE, hp, true_and, moves_iff]
      constructor
      · intro h
        obtain ⟨s, ⟨r, hempty, hread⟩, hrest⟩ := h
        exact ⟨r, s, hempty, hread, hrest⟩
      · intro h
        obtain ⟨r, s, hempty, hread, hrest⟩ := h
        exact ⟨s, ⟨r, hempty, hread⟩, hrest⟩
    constructor
    · intro h
      obtain ⟨q, hq, htrace⟩ := h
      obtain ⟨r, s, hempty, hread, hrest⟩ := (hstep q).mp htrace
      obtain ⟨q', hq', hrest'⟩ := (ih (hE.target_mem r _ s hread)).mp ⟨q, hq, hrest⟩
      exact ⟨q', hq', Trace.cons_iff.mpr ⟨r, s, hempty, hread, hrest'⟩⟩
    · intro h
      obtain ⟨q, hq, htrace⟩ := h
      obtain ⟨r, s, hempty, hread, hrest⟩ := Trace.cons_iff.mp htrace
      obtain ⟨q', hq', hrest'⟩ := (ih (hE.target_mem r _ s hread)).mpr ⟨q, hq, hrest⟩
      exact ⟨q', hq', (hstep q').mpr ⟨r, s, hempty, hread, hrest'⟩⟩

/-- Removing empty moves does not change what is recognized. -/
theorem recognizes_toNFA (hE : E.WellFormed) (w : Word) : E.toNFA.Recognizes w ↔ E.Recognizes w :=
  exists_trace_toNFA_iff hE hE.initial_mem w

/-- The test for empty moves finds those that there are. -/
theorem hasEpsilonMoves_iff : E.hasEpsilonMoves = true ↔ ∃ p q, E.Moves p .epsilon q := by
  simp only [hasEpsilonMoves, List.any_eq_true]
  constructor
  · intro h
    obtain ⟨⟨p, l, q⟩, hedge, hempty⟩ := h
    cases l with
    | epsilon => exact ⟨p, q, hedge⟩
    | symbol a => contradiction
  · intro h
    obtain ⟨p, q, hmove⟩ := h
    exact ⟨_, hmove, rfl⟩

/-- If there are no empty moves, removing them changes no part. -/
theorem sameParts_toNFA (hE : E.WellFormed) (hempty : ∀ p q, ¬E.Moves p .epsilon q) :
    SameParts E E.toNFA := by
  refine ⟨rfl, rfl, fun p l q => ?_, rfl, Std.ExtTreeSet.ext_mem fun q => ?_⟩
  · rw [NFA.moves_iff]
    simp only [mem_successors_toNFA hE, Trace.nil_iff_eq hempty, exists_eq_left', moves_iff]
    cases l with
    | epsilon => simpa [moves_iff] using hempty p q
    | symbol a =>
      simp only [Label.symbol.injEq, exists_eq_left']
      exact (and_iff_right_of_imp fun hq => hE.source_mem p _ q (moves_iff.mpr hq)).symm
  · simp only [mem_finals_toNFA, Trace.nil_iff_eq hempty, exists_eq_right']
    exact (and_iff_right_of_imp (hE.finals_subset q)).symm

/-- An automaton with empty moves that is deterministic is read as one with the same parts. -/
theorem sameParts_of_asDeterministic? (hE : E.WellFormed) {D : DFA}
    (h : E.asDeterministic? = some D) : SameParts E D := by
  unfold asDeterministic? at h
  split at h
  · contradiction
  · rename_i hnone
    have hempty (p q : State) : ¬E.Moves p .epsilon q :=
      fun hmove => hnone (hasEpsilonMoves_iff.mpr ⟨p, q, hmove⟩)
    exact (sameParts_toNFA hE hempty).trans (NFA.sameParts_of_asDeterministic? h)

end EpsilonNFA

namespace AnyAutomaton

/-- All states and symbols that an automaton mentions are declared. -/
def WellFormed : AnyAutomaton → Prop
  | dfa A | nfa A | epsilonNFA A => A.WellFormed

variable {A : AnyAutomaton}

/-- Two automata of any kind accept the same words if they recognize the same words. -/
theorem accepts_eq_of_recognizes_iff {B : AnyAutomaton}
    (h : ∀ w, A.Recognizes w ↔ B.Recognizes w) (w : Word) : A.accepts w = B.accepts w := by
  rw [Bool.eq_iff_iff, accepts_iff, accepts_iff, h]

/-- The symbols of accepted words are those of the alphabet. -/
theorem symbol_mem_of_accepts (hA : A.WellFormed) {w : Word} (h : A.accepts w = true) :
    ∀ a ∈ w, a ∈ A.alphabet := by
  rw [accepts_iff] at h
  cases A with
  | dfa A | nfa A | epsilonNFA A =>
    obtain ⟨q, -, htrace⟩ := h
    exact Automaton.WellFormed.symbol_mem_of_trace hA htrace

/-- The automaton without empty moves is well-formed and accepts the same words. -/
theorem toNFA_spec (hA : A.WellFormed) :
    A.toNFA.WellFormed ∧ ∀ w, A.toNFA.accepts w = A.accepts w := by
  cases A with
  | dfa D => exact ⟨D.sameParts_toNFA.wellFormed hA, D.accepts_toNFA⟩
  | nfa N => exact ⟨hA, fun _ => rfl⟩
  | epsilonNFA E =>
    exact ⟨EpsilonNFA.wellFormed_toNFA hA,
      accepts_eq_of_recognizes_iff (A := .nfa E.toNFA) (B := .epsilonNFA E)
        (EpsilonNFA.recognizes_toNFA hA)⟩

/-- The deterministic automaton is well-formed and accepts the same words. -/
theorem toDFA_spec (hA : A.WellFormed) :
    A.toDFA.WellFormed ∧ ∀ w, A.toDFA.accepts w = A.accepts w := by
  cases A with
  | dfa D => exact ⟨hA, fun _ => rfl⟩
  | nfa N => exact NFA.determinize_spec hA
  | epsilonNFA E =>
    obtain ⟨hN, haccepts⟩ := toNFA_spec (A := .epsilonNFA E) hA
    obtain ⟨hD, hsame⟩ := NFA.determinize_spec hN
    exact ⟨hD, fun w => (hsame w).trans (haccepts w)⟩

/-- Reading an automaton as one without empty moves leaves the alphabet alone. -/
@[simp] theorem alphabet_toNFA (A : AnyAutomaton) : A.toNFA.alphabet = A.alphabet := by
  cases A <;> rfl

/-- Making an automaton deterministic leaves the alphabet alone. -/
@[simp] theorem alphabet_toDFA (A : AnyAutomaton) : A.toDFA.alphabet = A.alphabet := by
  cases A <;> rfl

/-- Reading an automaton as one with empty moves leaves the alphabet alone. -/
@[simp] theorem alphabet_toEpsilonNFA (A : AnyAutomaton) :
    A.toEpsilonNFA.alphabet = A.alphabet := by
  cases A <;> rfl

/-- Reading an automaton as one with empty moves leaves the states alone. -/
@[simp] theorem states_toEpsilonNFA (A : AnyAutomaton) : A.toEpsilonNFA.states = A.states := by
  cases A <;> rfl

/-- The automaton with empty moves is well-formed and accepts the same words. -/
theorem toEpsilonNFA_spec (hA : A.WellFormed) :
    A.toEpsilonNFA.WellFormed ∧ ∀ w, A.toEpsilonNFA.accepts w = A.accepts w := by
  cases A with
  | dfa D =>
    have hparts := D.sameParts_toEpsilonNFA
    exact ⟨hparts.wellFormed hA,
      accepts_eq_of_recognizes_iff (A := .epsilonNFA D.toEpsilonNFA) (B := .dfa D)
        fun w => (hparts.recognizes_iff w).symm⟩
  | nfa N =>
    have hparts := N.sameParts_toEpsilonNFA
    exact ⟨hparts.wellFormed hA,
      accepts_eq_of_recognizes_iff (A := .epsilonNFA N.toEpsilonNFA) (B := .nfa N)
        fun w => (hparts.recognizes_iff w).symm⟩
  | epsilonNFA E => exact ⟨hA, fun _ => rfl⟩

/-- A deterministic automaton has the same parts as the automaton, of whatever kind this one is. -/
def ReadAs (A : AnyAutomaton) (D : DFA) : Prop :=
  match A with
  | dfa A | nfa A | epsilonNFA A => SameParts A D

/-- The deterministic automaton that is read off a well-formed one of any kind has its parts. -/
theorem readAs_of_asDeterministic? (hA : A.WellFormed) {D : DFA}
    (h : A.asDeterministic? = some D) : A.ReadAs D := by
  cases A with
  | dfa D =>
    obtain rfl := Option.some.inj h
    exact .refl D
  | nfa N => exact NFA.sameParts_of_asDeterministic? h
  | epsilonNFA E => exact EpsilonNFA.sameParts_of_asDeterministic? hA h

namespace ReadAs

variable {D : DFA}

/-- The deterministic automaton as which a well-formed one is read is well-formed. -/
theorem wellFormed (h : A.ReadAs D) (hA : A.WellFormed) : D.WellFormed := by
  cases A with
  | dfa A | nfa A | epsilonNFA A => exact SameParts.wellFormed h hA

/-- The deterministic automaton as which one is read has its alphabet. -/
theorem alphabet_eq (h : A.ReadAs D) : D.alphabet = A.alphabet := by
  cases A with
  | dfa A | nfa A | epsilonNFA A => exact (SameParts.alphabet_eq h).symm

/-- The deterministic automaton as which one is read accepts the same words. -/
theorem accepts_eq (h : A.ReadAs D) (w : Word) : D.accepts w = A.accepts w := by
  refine accepts_eq_of_recognizes_iff (A := .dfa D) (fun w => ?_) w
  cases A with
  | dfa A | nfa A | epsilonNFA A => exact (SameParts.recognizes_iff h w).symm

end ReadAs

/-- If the automaton is read as a deterministic one, this one is well-formed, with the same
alphabet, and accepts the same words. -/
theorem asDeterministic?_spec (hA : A.WellFormed) {D : DFA} (h : A.asDeterministic? = some D) :
    D.WellFormed ∧ D.alphabet = A.alphabet ∧ ∀ w, D.accepts w = A.accepts w := by
  have hread := readAs_of_asDeterministic? hA h
  exact ⟨hread.wellFormed hA, hread.alphabet_eq, hread.accepts_eq⟩

/-- Taking unreachable states away leaves the kind alone. -/
@[simp] theorem kind_trimmed (A : AnyAutomaton) : A.trimmed.kind = A.kind := by
  cases A <;> rfl

/-- Leaving out unreachable states does not change what is accepted. -/
theorem accepts_trimmed (hA : A.WellFormed) (w : Word) : A.trimmed.accepts w = A.accepts w := by
  apply accepts_eq_of_recognizes_iff
  intro w
  cases A with
  | dfa D => exact hA.recognizes_trimmed
  | nfa N => exact hA.recognizes_trimmed
  | epsilonNFA E => exact hA.recognizes_trimmed

end AnyAutomaton

end RegularLanguages
