import RegularLanguages.Proofs.Unions

/-!
# Concatenations and powers

A concatenation joins a copy of each automaton one after the other, so its language is the product
of the two, whatever their alphabets are. A power is a concatenation for each factor but the first
one, and each of them is built from the automaton that the one before it has made.
-/

namespace RegularLanguages

variable {l r A : AnyAutomaton}

/-- A concatenation recognizes a word of the first automaton and then one of the second. -/
theorem language_concatenation (l r : AnyAutomaton) :
    (concatenation l r).language = l.language * r.language := by
  rw [concatenation, EpsilonNFA.language_sequence (EpsilonNFA.liesIn_tagged _ "1_")
    (EpsilonNFA.liesIn_tagged _ "2_") EpsilonNFA.tags_apart (by decide) (by decide),
    EpsilonNFA.language_tagged, EpsilonNFA.language_tagged, AnyAutomaton.language_toEpsilonNFA,
    AnyAutomaton.language_toEpsilonNFA]

/-- A concatenation reads the symbols of both operands. -/
theorem alphabet_concatenation (l r : AnyAutomaton) :
    (concatenation l r).alphabet = l.alphabet ∪ r.alphabet := by
  change l.toEpsilonNFA.alphabet ∪ r.toEpsilonNFA.alphabet = _
  rw [AnyAutomaton.alphabet_toEpsilonNFA, AnyAutomaton.alphabet_toEpsilonNFA]

/-- A concatenation accepts the words that split into an accepted word for each automaton. -/
theorem accepts_concatenation_iff {w : Word} : (concatenation l r).accepts w = true ↔
    ∃ u v, w = u ++ v ∧ l.accepts u = true ∧ r.accepts v = true := by
  rw [EpsilonNFA.accepts_iff, ← Automaton.mem_language, language_concatenation, Language.mem_mul]
  constructor
  · intro h
    obtain ⟨u, hu, v, hv, rfl⟩ := h
    exact ⟨u, v, rfl, hu, hv⟩
  · intro h
    obtain ⟨u, v, rfl, hu, hv⟩ := h
    exact ⟨u, hu, v, hv, rfl⟩

/-- Concatenating an automaton with itself `n` times makes the power `n + 1` of its language. -/
theorem language_positivePower (A : AnyAutomaton) (n : Nat) :
    (positivePower A n).language = A.language ^ (n + 1) := by
  induction n with
  | zero => rw [positivePower, AnyAutomaton.language_toEpsilonNFA, zero_add, pow_one]
  | succ n ih =>
    calc (positivePower A (n + 1)).language
        = (AnyAutomaton.epsilonNFA (positivePower A n)).language * A.language :=
          language_concatenation _ A
      _ = A.language ^ (n + 1 + 1) := by rw [AnyAutomaton.language_epsilonNFA, ih, ← pow_succ]

/-- Every exponent that is not negative has a power, which recognizes the power of the language. -/
theorem exists_power (A : AnyAutomaton) (n : Nat) :
    ∃ E, power A n = .ok E ∧ E.language = A.language ^ n := by
  cases n with
  | zero => exact ⟨_, rfl, by rw [EpsilonNFA.language_emptyWord, pow_zero]⟩
  | succ n => exact ⟨_, rfl, language_positivePower A n⟩

/-- No negative exponent has a power. -/
theorem power_eq_error {n : Int} (h : n < 0) : power A n = .error (.negativeExponent n) := by
  obtain ⟨k, rfl⟩ := Int.eq_negSucc_of_lt_zero h
  rfl

/-- The concatenation of two automata of any kinds accepts the words that split into one of each,
over the symbols of both. A power of an automaton accepts the words that split into as many accepted
words as the exponent says: with exponent zero this is the empty word alone, with exponent one the
automaton is kept as it is, and negative exponents are refused. -/
theorem concatenation_and_power_split_words (l r A : AnyAutomaton) :
    ((concatenation l r).alphabet = l.alphabet ∪ r.alphabet ∧
      ∀ w, (concatenation l r).accepts w = true ↔
        ∃ u v, w = u ++ v ∧ l.accepts u = true ∧ r.accepts v = true) ∧
    (∀ n : Int, n < 0 → power A n = .error (.negativeExponent n)) ∧
    (∀ n : Nat, ∃ E, power A n = .ok E ∧ ∀ w, E.accepts w = true ↔
      ∃ pieces : List Word, pieces.length = n ∧ w = pieces.flatten ∧
        ∀ u ∈ pieces, A.accepts u = true) ∧
    (∃ E, power A 0 = .ok E ∧ ∀ w, E.accepts w = true ↔ w = []) ∧
    power A 1 = .ok A.toEpsilonNFA := by
  refine ⟨⟨alphabet_concatenation l r, fun w => accepts_concatenation_iff⟩,
    fun n => power_eq_error, fun n => ?_, ?_, rfl⟩
  · obtain ⟨E, hE, hlanguage⟩ := exists_power A n
    refine ⟨E, hE, fun w => ?_⟩
    rw [EpsilonNFA.accepts_iff, ← Automaton.mem_language, hlanguage, Language.mem_pow]
    exact exists_congr fun pieces => and_left_comm
  · obtain ⟨E, hE, hlanguage⟩ := exists_power A 0
    refine ⟨E, hE, fun w => ?_⟩
    rw [EpsilonNFA.accepts_iff, ← Automaton.mem_language, hlanguage, pow_zero, Language.mem_one]

/-- An automaton returns to its first state after each `a`, and from there by empty moves to a final
state and back. Another one has the word `b` only, over an alphabet of its own. Concatenating them
keeps the loop on the left, and powers of the second one count its words. -/
theorem concatenation_and_power_of_loop :
    let E : EpsilonNFA := ⟨.ofList ["p", "q"], .ofText "a", .ofTriples [("p", .symbol 'a', "p"),
      ("p", .epsilon, "q"), ("q", .epsilon, "p")], "p", .ofList ["p", "q"]⟩
    let D : DFA := ⟨.ofList ["p", "q"], .ofText "b", .ofTriples [("p", 'b', "q")], "p",
      .ofList ["q"]⟩
    (concatenation E D).accepts ['a', 'a', 'b'] = true ∧
      (concatenation E D).accepts ['b'] = true ∧
      (∃ P, power D 2 = .ok P ∧ P.accepts ['b', 'b'] = true) ∧
      (∃ P, power D 0 = .ok P ∧ P.accepts [] = true ∧ P.accepts ['b'] = false) ∧
      power D 1 = .ok D.toEpsilonNFA ∧ power D (-3) = .error (.negativeExponent (-3)) := by
  intro E D
  obtain ⟨⟨-, hsplits⟩, hnegative, hpower, ⟨P, hP, hempty⟩, hone⟩ :=
    concatenation_and_power_split_words E D D
  obtain ⟨Q, hQ, hQaccepts⟩ := hpower 2
  refine ⟨?_, ?_, ⟨Q, hQ, ?_⟩, ⟨P, hP, (hempty _).mpr rfl, ?_⟩, hone, hnegative _ (by decide)⟩
  · exact (hsplits _).mpr ⟨['a', 'a'], ['b'], rfl, by decide +kernel, by decide +kernel⟩
  · exact (hsplits _).mpr ⟨[], ['b'], rfl, by decide +kernel, by decide +kernel⟩
  · have hb : (D : AnyAutomaton).accepts ['b'] = true := by decide +kernel
    exact (hQaccepts _).mpr ⟨[['b'], ['b']], rfl, rfl, by simpa using hb⟩
  · rw [← Bool.not_eq_true, hempty]
    simp

end RegularLanguages
