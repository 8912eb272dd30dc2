import RegularLanguages.Proofs.Kinds

/-!
# Leaving out unreachable states

Following transitions from the initial state finds the states that words lead to. These states and
all transitions between them are kept. No transition leads out of them, so traces from the initial
state stay as they are, and leaving out unreachable states again finds none. If as many states are
reachable as there are states, then the automaton is returned as it is; for a well-formed one, these
are all its states.
-/

namespace RegularLanguages

namespace Automaton.WellFormed

variable {T : Type} [TransitionTable T] {A : Automaton T}

/-- The states that are kept are those that transitions lead to from the initial state. -/
theorem mem_states_trimmed_iff_follows (h : A.WellFormed) {q : State} :
    q ∈ A.trimmed.states ↔ Relation.ReflTransGen A.Follows A.initial q := by
  rw [h.states_trimmed, mem_reachableStates_iff_follows]

/-- The final states that are kept are those among the states that are kept. -/
theorem mem_finals_trimmed_iff_mem_states (h : A.WellFormed) {q : State} :
    q ∈ A.trimmed.finals ↔ q ∈ A.finals ∧ q ∈ A.trimmed.states := by
  rw [h.mem_finals_trimmed, h.states_trimmed]

variable [LawfulTransitionTable T]

/-- The transitions that are kept are those between states that are kept. -/
theorem mem_edges_trimmed (h : A.WellFormed) {e : Edge} : e ∈ A.trimmed.edges ↔
    e ∈ A.edges ∧ e.source ∈ A.trimmed.states ∧ e.target ∈ A.trimmed.states := by
  rw [h.states_trimmed]
  refine h.moves_trimmed.trans (and_congr_right fun hmove => ?_)
  exact (and_iff_left_of_imp fun hsource => mem_reachableStates_of_moves hsource hmove).symm

/-- Once unreachable states are left out, there are none. -/
theorem trimmed_trimmed (h : A.WellFormed) : A.trimmed.trimmed = A.trimmed :=
  h.trimmed.trimmed_eq_self fun _ => h.exists_trace_trimmed

end Automaton.WellFormed

namespace AnyAutomaton

variable {A : AnyAutomaton}

/-- A transition leads from one state to the other. -/
def Follows (A : AnyAutomaton) (p q : State) : Prop := ∃ l, ⟨p, l, q⟩ ∈ A.edges

/-- Of a well-formed automaton of any kind, the states that transitions lead to from the initial
state are kept, with the transitions between them and those of them that are final. This does not
change which words are accepted, and doing it again changes nothing. -/
theorem trimmed_keeps_what_is_reachable (hA : A.WellFormed) :
    (A.trimmed.kind = A.kind ∧ A.trimmed.alphabet = A.alphabet ∧
      A.trimmed.initial = A.initial) ∧
    (∀ q, q ∈ A.trimmed.states ↔ Relation.ReflTransGen A.Follows A.initial q) ∧
    (∀ e, e ∈ A.trimmed.edges ↔
      e ∈ A.edges ∧ e.source ∈ A.trimmed.states ∧ e.target ∈ A.trimmed.states) ∧
    (∀ q, q ∈ A.trimmed.finals ↔ q ∈ A.finals ∧ q ∈ A.trimmed.states) ∧
    (∀ w, A.trimmed.accepts w = A.accepts w) ∧
    A.trimmed.trimmed = A.trimmed := by
  have haccepts := accepts_trimmed hA
  cases A with
  | dfa A | nfa A | epsilonNFA A =>
    refine ⟨⟨rfl, Automaton.alphabet_trimmed, Automaton.initial_trimmed⟩,
      fun q => hA.mem_states_trimmed_iff_follows, fun e => hA.mem_edges_trimmed,
      fun q => hA.mem_finals_trimmed_iff_mem_states, haccepts, ?_⟩
    rw [trimmed, trimmed, hA.trimmed_trimmed]

/-- A loop that cannot be reached leads into the rest of the automaton, in which empty moves go in a
circle. The state of the loop is left out although it is final and has an outgoing transition. -/
theorem trimmed_of_automaton_with_unreachable_loop :
    let E : EpsilonNFA := ⟨.ofList ["p", "q", "r", "s"], .ofText "ab",
      .ofTriples [("p", .symbol 'a', "q"), ("q", .epsilon, "s"), ("s", .epsilon, "q"),
        ("r", .symbol 'a', "r"), ("r", .symbol 'b', "p")], "p", .ofList ["r", "s"]⟩
    E.WellFormed ∧ ¬Relation.ReflTransGen (AnyAutomaton.Follows E) "p" "r" ∧
      E.trimmed.states = .ofList ["p", "q", "s"] ∧ E.trimmed.finals = .single "s" ∧
      EpsilonNFA.accepts E.trimmed ['a'] = true ∧ E.trimmed.trimmed = E.trimmed := by
  intro E
  have hE : E.WellFormed := by
    apply EpsilonNFA.wellFormed_ofTriples <;> simp_all [Alphabet.ofText]
    grind
  obtain ⟨-, hstates, -, -, haccepts, htwice⟩ := trimmed_keeps_what_is_reachable (A := E) hE
  refine ⟨hE, ?_, by decide +kernel, by decide +kernel, ?_, AnyAutomaton.epsilonNFA.inj htwice⟩
  · exact (not_congr (hstates "r")).mp (by decide +kernel)
  · exact (haccepts ['a']).trans (by decide +kernel)

end AnyAutomaton

end RegularLanguages
