import RegularLanguages.Automaton.Any
import RegularLanguages.Proofs.Traces

/-!
# Acceptance is recognition

Each kind of automaton decides by a run of its own whether it accepts a word: along one path, along
sets of states, or along sets that are closed under empty moves. All three runs find the ends of
the traces that spell the word, so an automaton accepts the words that it recognizes.
-/

namespace RegularLanguages

namespace DFA

variable {D : DFA}

/-- A deterministic automaton moves over the symbols of its table only. -/
theorem moves_iff {p q : State} {l : Label} :
    D.Moves p l q ↔ ∃ a, l = .symbol a ∧ D.successor? p a = some q := DeterministicTable.mem_edges

/-- A deterministic automaton has no empty moves. -/
@[simp] theorem not_moves_epsilon {p q : State} : ¬D.Moves p .epsilon q := by
  simp [moves_iff]

/-- The moves of a deterministic automaton over a symbol are given by its successors. -/
@[simp] theorem moves_symbol {p q : State} {a : Symbol} :
    D.Moves p (.symbol a) q ↔ D.successor? p a = some q := by
  simp [moves_iff]

/-- The empty word stays where it starts. -/
@[simp] theorem runFrom_nil (q : State) : D.runFrom q [] = some q := rfl

/-- A run goes on from the successor, or gets stuck. -/
@[simp] theorem runFrom_cons (q : State) (a : Symbol) (w : Word) :
    D.runFrom q (a :: w) = (D.successor? q a).bind fun p => D.runFrom p w := by
  rw [runFrom]
  cases D.successor? q a <;> rfl

/-- The run on a word goes on with the run on what follows it. -/
theorem runFrom_append (q : State) (v w : Word) :
    D.runFrom q (v ++ w) = (D.runFrom q v).bind fun p => D.runFrom p w := by
  induction v generalizing q with
  | nil => rfl
  | cons a v ih =>
    rw [List.cons_append, runFrom_cons, runFrom_cons]
    cases D.successor? q a with
    | none => rfl
    | some p => exact ih p

/-- A run on a word and one more symbol takes one more step. -/
theorem run_concat (w : Word) (a : Symbol) :
    D.run (w ++ [a]) = (D.run w).bind fun p => D.successor? p a := by
  rw [run, run, runFrom_append]
  simp

/-- A word is accepted if it leads to a final state. -/
theorem accepts_iff_exists_run {w : Word} :
    D.accepts w = true ↔ ∃ q, D.run w = some q ∧ D.isFinal q = true := by
  rw [accepts]
  cases D.run w <;> simp

/-- Whether the run on a word from a state ends in a final state. -/
def acceptsFrom (D : DFA) (q : State) (w : Word) : Bool := (D.runFrom q w).any D.isFinal

/-- The empty word is accepted from the final states. -/
@[simp] theorem acceptsFrom_nil (q : State) : D.acceptsFrom q [] = D.isFinal q := rfl

/-- A word is accepted from a state if its rest is accepted from the successor. -/
@[simp] theorem acceptsFrom_cons (q : State) (a : Symbol) (w : Word) :
    D.acceptsFrom q (a :: w) = (D.successor? q a).any fun p => D.acceptsFrom p w := by
  rw [acceptsFrom, runFrom_cons]
  cases D.successor? q a <;> rfl

/-- A word is accepted if it is accepted from the initial state. -/
theorem accepts_eq_acceptsFrom (w : Word) : D.accepts w = D.acceptsFrom D.initial w := by
  rw [accepts, run, acceptsFrom]
  cases D.runFrom D.initial w <;> rfl

/-- What is accepted behind a word is accepted from the state that the word leads to. -/
theorem accepts_append {q : State} {v : Word} (h : D.run v = some q) (w : Word) :
    D.accepts (v ++ w) = D.acceptsFrom q w := by
  rw [run] at h
  rw [accepts_eq_acceptsFrom, acceptsFrom, runFrom_append, h, Option.bind_some, acceptsFrom]

/-- The run on a word ends where its only trace ends. -/
theorem trace_iff {p q : State} {w : Word} : Trace D.Moves p w q ↔ D.runFrom p w = some q := by
  constructor
  · intro h
    induction h with
    | refl => rfl
    | epsilon hstep => exact absurd hstep not_moves_epsilon
    | symbol hstep _ ih => rw [runFrom_cons, moves_symbol.mp hstep, Option.bind_some, ih]
  · intro h
    induction w generalizing p with
    | nil =>
      obtain rfl := Option.some.inj h
      exact .refl p
    | cons a w ih =>
      rw [runFrom_cons] at h
      obtain ⟨r, hr, hrest⟩ := Option.bind_eq_some_iff.mp h
      exact .symbol (moves_symbol.mpr hr) (ih hrest)

/-- A deterministic automaton accepts what it recognizes. -/
theorem accepts_iff {w : Word} : D.accepts w = true ↔ D.Recognizes w := by
  simp only [accepts_iff_exists_run, Automaton.Recognizes, trace_iff, Automaton.isFinal_iff]
  exact exists_congr fun _ => and_comm

end DFA

namespace NFA

variable {N : NFA}

/-- A nondeterministic automaton moves over the symbols of its table only. -/
theorem moves_iff {p q : State} {l : Label} :
    N.Moves p l q ↔ ∃ a, l = .symbol a ∧ q ∈ N.successors p a := NondeterministicTable.mem_edges

/-- A nondeterministic automaton of the plain kind has no empty moves. -/
@[simp] theorem not_moves_epsilon {p q : State} : ¬N.Moves p .epsilon q := by
  simp [moves_iff]

/-- The moves of a nondeterministic automaton over a symbol are given by its sets of successors. -/
@[simp] theorem moves_symbol {p q : State} {a : Symbol} :
    N.Moves p (.symbol a) q ↔ q ∈ N.successors p a := by
  simp [moves_iff]

/-- A step leads to the successors of all states of a set. -/
@[simp] theorem mem_step {states : StateSet} {a : Symbol} {q : State} :
    q ∈ N.step states a ↔ ∃ p ∈ states, q ∈ N.successors p a := EdgeTable.mem_step

/-- Without empty moves, the trace of the empty word stays where it is. -/
theorem trace_nil_iff {p q : State} : Trace N.Moves p [] q ↔ p = q :=
  Trace.nil_iff_eq fun _ _ => not_moves_epsilon

/-- Without empty moves, the trace of a word begins by reading its first symbol. -/
theorem trace_cons_iff {p r : State} {a : Symbol} {w : Word} :
    Trace N.Moves p (a :: w) r ↔ ∃ q ∈ N.successors p a, Trace N.Moves q w r := by
  simp [Trace.cons_iff, trace_nil_iff]

/-- The run from a set of states finds the ends of the traces from its members. -/
theorem mem_runFrom {states : StateSet} {w : Word} {q : State} :
    q ∈ N.runFrom states w ↔ ∃ p ∈ states, Trace N.Moves p w q := by
  induction w generalizing states with
  | nil => simp [runFrom, trace_nil_iff]
  | cons a w ih =>
    simp only [runFrom, ih, mem_step, trace_cons_iff]
    constructor
    · intro h
      obtain ⟨r, ⟨p, hp, hr⟩, htrace⟩ := h
      exact ⟨p, hp, r, hr, htrace⟩
    · intro h
      obtain ⟨p, hp, r, hr, htrace⟩ := h
      exact ⟨r, ⟨p, hp, hr⟩, htrace⟩

/-- A nondeterministic automaton accepts what it recognizes. -/
theorem accepts_iff {w : Word} : N.accepts w = true ↔ N.Recognizes w := by
  simp only [accepts, run, Automaton.anyFinal_iff, mem_runFrom, StateSet.mem_single,
    exists_eq_left, Automaton.Recognizes]
  exact exists_congr fun _ => and_comm

end NFA

namespace EpsilonNFA

variable {E : EpsilonNFA}

/-- The moves of an automaton with empty moves are given by its sets of successors. -/
@[simp] theorem moves_iff {p q : State} {l : Label} : E.Moves p l q ↔ q ∈ E.successors p l :=
  EpsilonTable.mem_edges

/-- A step over a symbol leads to the successors of all states of a set, before any empty moves. -/
@[simp] theorem mem_step {states : StateSet} {a : Symbol} {q : State} :
    q ∈ E.step states a ↔ ∃ p ∈ states, q ∈ E.successors p (.symbol a) := EdgeTable.mem_step

/-- The closure of a set has the ends of the traces of the empty word from its members. -/
theorem mem_closure {states : StateSet} {q : State} :
    q ∈ E.closure states ↔ ∃ p ∈ states, Trace E.Moves p [] q := by
  rw [closure, StateSet.mem_reach E.transitions.rows.rows.keys.toFinset]
  · simp only [Trace.nil_iff, moves_iff]
    rfl
  · intro p q hq
    exact List.mem_toFinset.mpr (EdgeTable.mem_keys_of_mem_successors hq)
  · exact (List.toFinset_card_le _).trans_eq Std.ExtTreeMap.length_keys

/-- Empty moves do not lead out of a closed set. -/
def IsClosed (E : EpsilonNFA) (states : StateSet) : Prop :=
  ∀ p ∈ states, ∀ q, Trace E.Moves p [] q → q ∈ states

/-- Closures are closed. -/
theorem isClosed_closure (E : EpsilonNFA) (states : StateSet) : E.IsClosed (E.closure states) := by
  intro p hp q htrace
  obtain ⟨r, hr, hfirst⟩ := mem_closure.mp hp
  exact mem_closure.mpr ⟨r, hr, hfirst.append htrace⟩

/-- From a closed set, a symbol and the empty moves after it lead to the ends of its traces. -/
theorem mem_closedStep {states : StateSet} (hclosed : E.IsClosed states) {a : Symbol} {q : State} :
    q ∈ E.closedStep states a ↔ ∃ p ∈ states, Trace E.Moves p [a] q := by
  simp only [closedStep, mem_closure, mem_step, Trace.cons_iff, moves_iff]
  constructor
  · intro h
    obtain ⟨s, ⟨r, hr, hread⟩, hrest⟩ := h
    exact ⟨r, hr, r, s, .refl r, hread, hrest⟩
  · intro h
    obtain ⟨p, hp, r, s, hempty, hread, hrest⟩ := h
    exact ⟨s, ⟨r, hclosed p hp r hempty, hread⟩, hrest⟩

/-- The run from a closed set finds the ends of the traces from its members. -/
theorem mem_runFrom {states : StateSet} (hclosed : E.IsClosed states) {w : Word} {q : State} :
    q ∈ E.runFrom states w ↔ ∃ p ∈ states, Trace E.Moves p w q := by
  induction w generalizing states with
  | nil =>
    constructor
    · intro h
      exact ⟨q, h, .refl q⟩
    · intro h
      obtain ⟨p, hp, htrace⟩ := h
      exact hclosed p hp q htrace
  | cons a w ih =>
    have hnext : E.IsClosed (E.closedStep states a) := E.isClosed_closure _
    rw [runFrom, ih hnext]
    constructor
    · intro h
      obtain ⟨s, hs, hrest⟩ := h
      obtain ⟨p, hp, hread⟩ := (mem_closedStep hclosed).mp hs
      exact ⟨p, hp, by simpa using hread.append hrest⟩
    · intro h
      obtain ⟨p, hp, htrace⟩ := h
      obtain ⟨r, s, hempty, hread, hrest⟩ := Trace.cons_iff.mp htrace
      refine ⟨s, (mem_closedStep hclosed).mpr ⟨p, hp, ?_⟩, hrest⟩
      exact Trace.cons_iff.mpr ⟨r, s, hempty, hread, .refl s⟩

/-- An automaton with empty moves accepts what it recognizes. -/
theorem accepts_iff {w : Word} : E.accepts w = true ↔ E.Recognizes w := by
  simp only [accepts, run, Automaton.anyFinal_iff, mem_runFrom (E.isClosed_closure _), mem_closure,
    StateSet.mem_single, exists_eq_left, Automaton.Recognizes]
  constructor
  · intro h
    obtain ⟨q, ⟨p, hempty, htrace⟩, hfinal⟩ := h
    exact ⟨q, hfinal, by simpa using hempty.append htrace⟩
  · intro h
    obtain ⟨q, hfinal, htrace⟩ := h
    exact ⟨q, ⟨E.initial, .refl _, htrace⟩, hfinal⟩

end EpsilonNFA

namespace AnyAutomaton

/-- Some trace leads over the word from the initial state to a final one. -/
def Recognizes : AnyAutomaton → Word → Prop
  | dfa A | nfa A | epsilonNFA A => A.Recognizes

/-- An automaton of any kind accepts what it recognizes. -/
theorem accepts_iff {A : AnyAutomaton} {w : Word} : A.accepts w = true ↔ A.Recognizes w := by
  cases A with
  | dfa D => exact DFA.accepts_iff
  | nfa N => exact NFA.accepts_iff
  | epsilonNFA E => exact EpsilonNFA.accepts_iff

end AnyAutomaton

end RegularLanguages
