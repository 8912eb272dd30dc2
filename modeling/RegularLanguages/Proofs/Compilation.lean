import RegularLanguages.Proofs.Dictionaries

/-!
# Compiled automata and the checks

Expressions and patterns are made into automata without the checks of their parts. The parts pass
these checks all the same, and make the same automaton again, unless the given alphabet has the
character that stands for the empty move. Nothing refuses such an alphabet on the way, so every
automaton over it has parts that the checks refuse, and a written form that cannot be read.
-/

namespace RegularLanguages

/-- An automaton that an expression or a pattern is made into, over the given alphabet. -/
inductive Compiles (alphabet : Alphabet) : EpsilonNFA → Prop
  | expression {x : Regex} {E : EpsilonNFA} (h : x.toAutomaton alphabet = .ok E) :
      Compiles alphabet E
  | configured {rules : Pattern.Rules} {pattern : String} {p : Pattern.Compiled}
      (h : Pattern.Compiled.ofText rules pattern = .ok p) (halphabet : rules.alphabet = alphabet) :
      Compiles alphabet p.automaton
  | pattern {pattern : String} {E : EpsilonNFA} (h : Pattern.compile pattern alphabet = .ok E) :
      Compiles alphabet E

namespace Compiles

variable {alphabet : Alphabet} {E : EpsilonNFA}

/-- A pattern is made into the automaton of an expression. -/
theorem exists_toAutomaton_eq (h : Compiles alphabet E) :
    ∃ x : Regex, x.toAutomaton alphabet = .ok E := by
  cases h with
  | expression h => exact ⟨_, h⟩
  | configured h halphabet =>
    exact ⟨_, halphabet ▸ (Pattern.Compiled.ofText_eq_ok_iff.mp h).2.1⟩
  | pattern h =>
    obtain ⟨p, hp, rfl⟩ := exists_of_map_eq_ok h
    exact ⟨_, (Pattern.Compiled.ofText_eq_ok_iff.mp hp).2.1⟩

/-- The parts of a compiled automaton make this automaton, and its written form is read as this
automaton, except over an alphabet with the character that stands for the empty move: there, both
are refused for this character. -/
theorem parts_checked_unless_epsilon (h : Compiles alphabet E) :
    E.alphabet = alphabet ∧
    (epsilonSymbol ∉ alphabet →
      Automaton.ofParts E.states.toList E.alphabet E.edges E.initial E.finals.toList = .ok E ∧
      E.toDictionary.toAutomaton = .ok E) ∧
    (epsilonSymbol ∈ alphabet →
      Automaton.ofParts (T := EpsilonTable) E.states.toList E.alphabet E.edges E.initial
        E.finals.toList = .error ⟨.epsilonNFA, .epsilonInAlphabet⟩ ∧
      E.toDictionary.toAutomaton (T := EpsilonTable) =
        .error ⟨.epsilonNFA, .epsilonInAlphabet⟩) := by
  obtain ⟨x, hx⟩ := h.exists_toAutomaton_eq
  have hE : E.Sound := Regex.sound_of_toAutomaton hx
  obtain rfl : E.alphabet = alphabet := Regex.alphabet_of_toAutomaton hx
  refine ⟨rfl, fun hepsilon => ⟨?_, hE.toAutomaton_toDictionary hepsilon⟩, fun hepsilon => ⟨?_, ?_⟩⟩
  · exact hE.ofParts_eq_ok hepsilon (FiniteSet.ofList_toList _) (fun e => .rfl)
      (FiniteSet.ofList_toList _)
  · exact Automaton.ofParts_eq_error ⟨E.initial, by simpa using hE.initial_mem⟩ hepsilon
  · have hwritten := hE.writtenForm_toDictionary (by rintro ⟨⟩)
    exact hwritten.toAutomaton_eq_error hE.toWellFormed hepsilon

/-- A symbol is made into an automaton that is written out and read again. -/
theorem parts_checked_single_symbol :
    let E : EpsilonNFA := ⟨.ofList ["q0", "q1"], .ofText "a",
      .ofTriples [("q0", .symbol 'a', "q1")], "q0", .ofList ["q1"]⟩
    Pattern.compile "a" (.ofText "a") = .ok E ∧
      Automaton.ofParts E.states.toList E.alphabet E.edges E.initial E.finals.toList = .ok E ∧
      E.toDictionary.toAutomaton = .ok E := by
  intro E
  have hcompile : Pattern.compile "a" (.ofText "a") = .ok E := by decide +kernel
  obtain ⟨-, hplain, -⟩ := parts_checked_unless_epsilon (.pattern hcompile)
  exact ⟨hcompile, hplain (by decide +kernel)⟩

/-- The same symbol over an alphabet with the character that stands for the empty move: not all
compiled automata have parts that pass the checks. -/
theorem not_forall_parts_checked : ¬ ∀ (alphabet : Alphabet) (E : EpsilonNFA),
    Compiles alphabet E → Automaton.ofParts E.states.toList E.alphabet E.edges E.initial
      E.finals.toList = .ok E := by
  intro h
  let E : EpsilonNFA := ⟨.ofList ["q0", "q1"], .ofText "aε",
    .ofTriples [("q0", .symbol 'a', "q1")], "q0", .ofList ["q1"]⟩
  have hcompile : Pattern.compile "a" (.ofText "aε") = .ok E := by decide +kernel
  have hrefused : Automaton.ofParts (T := EpsilonTable) E.states.toList E.alphabet E.edges
      E.initial E.finals.toList = .error ⟨.epsilonNFA, .epsilonInAlphabet⟩ := by decide +kernel
  have hchecked := h (.ofText "aε") E (.pattern hcompile)
  rw [hrefused] at hchecked
  contradiction

end Compiles

end RegularLanguages
