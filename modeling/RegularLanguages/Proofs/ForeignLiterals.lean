import RegularLanguages.Proofs.ViablePrefixes

/-!
# Literals outside the alphabet

An expression has an automaton over every alphabet with all its literals, and if some are missing,
the leftmost of them is reported. What is read from a pattern has literals of the alphabet only, so
a pattern is refused for its characters or the order of its tokens or not at all.
-/

namespace RegularLanguages

namespace Pattern

variable {rules : Rules}

/-- A pattern that cannot be read is at fault in some place. -/
theorem placed_parse (pattern : String) (e : PatternError) (h : parse rules pattern = .error e) :
    ∃ position, e.position? = some position := by
  rcases exists_goesWrong_of_parse h with ⟨-, rfl⟩ | ⟨_, reading, _, -, -, -, hwrong⟩
  · exact ⟨0, rfl⟩
  cases hwrong with
  | token _ _ herror =>
    obtain ⟨fault, rfl, -⟩ := reading.standsAt_read _ e herror
    exact ⟨_, rfl⟩
  | characters => exact ⟨_, rfl⟩
  | ending herror =>
    unfold Reading.finish at herror
    split at herror
    case h_3 => contradiction
    all_goals
      rw [← Except.error.inj herror]
      exact ⟨_, rfl⟩

/-- A pattern is not compiled exactly if it cannot be read. -/
theorem Compiled.ofText_eq_error_iff {pattern : String} {e : PatternError} :
    Compiled.ofText rules pattern = .error e ↔ parse rules pattern = .error e := by
  cases hread : parse rules pattern with
  | error f => simp [ofText, hread]
  | ok x =>
    obtain ⟨p, hp, -⟩ := exists_ofText_of_parse hread
    simp [hp]

end Pattern

namespace Regex

/-- An expression is made into an automaton unless it has a literal outside the alphabet. The
leftmost of these is reported. -/
theorem toAutomaton_eq_error_iff_foreign {x : Regex} {alphabet : Alphabet} {e : PatternError} :
    x.toAutomaton alphabet = .error e ↔ ∃ before a after,
      x.literals = before ++ a :: after ∧ (∀ b ∈ before, b ∈ alphabet) ∧ a ∉ alphabet ∧
        e = .assembly (.foreignLiteral a alphabet) := by
  rw [toAutomaton_eq_error_iff]
  constructor
  · intro h
    obtain ⟨fault, hfault, rfl⟩ := h
    obtain ⟨before, a, after, hsplit, hbefore, hforeign, rfl⟩ := assemble_eq_error_iff.mp hfault
    exact ⟨before, a, after, hsplit, hbefore, hforeign, rfl⟩
  · intro h
    obtain ⟨before, a, after, hsplit, hbefore, hforeign, rfl⟩ := h
    exact ⟨_, assemble_eq_error_iff.mpr ⟨before, a, after, hsplit, hbefore, hforeign, rfl⟩, rfl⟩

/-- An expression is refused exactly if it has a literal outside the alphabet, and then the leftmost
of these is reported. A walk around the expression, on which a leaf might come to be combined, has
the outcome of the program and so never combines one. The literals of a pattern that can be read
belong to the alphabet, so a pattern is only refused if its characters are no tokens or its tokens
no expression. -/
theorem refused_exactly_for_foreign_literals :
    (∀ (x : Regex) (alphabet : Alphabet),
      ((∃ e, x.toAutomaton alphabet = .error e) ↔ ∃ a ∈ x.literals, a ∉ alphabet) ∧
      (∀ e, x.toAutomaton alphabet = .error e ↔ ∃ before a after,
        x.literals = before ++ a :: after ∧ (∀ b ∈ before, b ∈ alphabet) ∧ a ∉ alphabet ∧
          e = .assembly (.foreignLiteral a alphabet)) ∧
      Assembly.start.walk alphabet [.enter x] =
        (Assembly.start.run alphabet (x.program [])).mapError .assembly ∧
      ∀ leaf, Assembly.start.walk alphabet [.enter x] ≠ .error (.combinedLeaf leaf)) ∧
    ∀ (rules : Pattern.Rules) (pattern : String),
      (∀ x, Pattern.parse rules pattern = .ok x → ∀ a ∈ x.literals, a ∈ rules.alphabet) ∧
      ∀ e, Pattern.Compiled.ofText rules pattern = .error e ↔
        Pattern.parse rules pattern = .error e ∧
          ((∃ position fault, e = .lexical position fault) ∨
            ∃ position fault, e = .grammar position fault) := by
  refine ⟨fun x alphabet => ⟨⟨?refused, ?foreign⟩, fun e => toAutomaton_eq_error_iff_foreign,
    Assembly.walk_eq_run x, fun leaf => ?leaf⟩, fun rules pattern => ⟨?literals, fun e => ?errors⟩⟩
  case refused =>
    intro h
    obtain ⟨e, he⟩ := h
    obtain ⟨before, a, after, hsplit, -, hforeign, -⟩ := toAutomaton_eq_error_iff_foreign.mp he
    exact ⟨a, by simp [hsplit], hforeign⟩
  case foreign =>
    intro h
    obtain ⟨a, ha, hforeign⟩ := h
    cases hmade : x.toAutomaton alphabet with
    | error e => exact ⟨e, rfl⟩
    | ok E => exact absurd (mem_of_toAutomaton hmade a ha) hforeign
  case leaf =>
    rw [Assembly.walk_eq_run x]
    cases Assembly.start.run alphabet (x.program []) <;> simp [Except.mapError]
  case literals => exact fun x hx a ha => (Pattern.mem_of_parse hx ha).1
  case errors =>
    rw [Pattern.Compiled.ofText_eq_error_iff]
    refine ⟨fun h => ⟨h, ?_⟩, And.left⟩
    obtain ⟨position, hposition⟩ := Pattern.placed_parse pattern e h
    cases e with
    | lexical position fault => exact .inl ⟨position, fault, rfl⟩
    | grammar position fault => exact .inr ⟨position, fault, rfl⟩
    | assembly => contradiction

/-- Of two literals outside the alphabet the first one is reported, whatever is repeated. A pattern
over the same alphabet has none, and one that ends within a group is not read. -/
theorem refused_for_first_foreign_literal :
    let x := concat (literal 'a') (union (star (literal 'd')) (literal 'c'))
    let rules := Pattern.Rules.ofAlphabet (.ofText "ab")
    let y := concat (literal 'a') (star (group (union (literal 'b') (literal 'a'))))
    x.toAutomaton (.ofText "ab") = .error (.assembly (.foreignLiteral 'd' (.ofText "ab"))) ∧
      Pattern.parse rules "a(b|a)*" = .ok y ∧ (∀ a ∈ y.literals, a ∈ rules.alphabet) ∧
      Pattern.Compiled.ofText rules "a(b" = .error (.grammar 1 .unclosedGroup) := by
  intro x rules y
  obtain ⟨hexpressions, hpatterns⟩ := refused_exactly_for_foreign_literals
  obtain ⟨-, hleftmost, -, -⟩ := hexpressions x (.ofText "ab")
  obtain ⟨hliterals, -⟩ := hpatterns rules "a(b|a)*"
  obtain ⟨-, herrors⟩ := hpatterns rules "a(b"
  have hparse : Pattern.parse rules "a(b|a)*" = .ok y := by decide +kernel
  have hunclosed : Pattern.parse rules "a(b" = .error (.grammar 1 .unclosedGroup) := by
    decide +kernel
  have hforeign : 'd' ∉ Alphabet.ofText "ab" := by decide +kernel
  have hbefore : ∀ b ∈ ['a'], b ∈ Alphabet.ofText "ab" := by simp [Alphabet.ofText]
  exact ⟨(hleftmost _).mpr ⟨['a'], 'd', ['c'], rfl, hbefore, hforeign, rfl⟩, hparse,
    hliterals y hparse, (herrors _).mpr ⟨hunclosed, .inr ⟨1, _, rfl⟩⟩⟩

end Regex

end RegularLanguages
