import RegularLanguages.Pattern.Compiled
import RegularLanguages.Proofs.Acceptance
import RegularLanguages.Proofs.Fragments
import RegularLanguages.Proofs.Names

/-!
# Automata of expressions

The last fragment of a program becomes an automaton by naming its states. Since different numbers
have different names, the automaton has the traces of the fragment and no others, and so it accepts
the words that its expression denotes.
-/

namespace RegularLanguages

namespace Assembly

variable {alphabet : Alphabet} {arena : Arena} {x : Fragment} {E : EpsilonNFA}

/-- The moves of the automaton are the transitions of the arena between named states. -/
theorem moves_of_finish (h : finish alphabet ⟨arena, [x]⟩ = .ok E) {p q : State} {l : Label} :
    E.Moves p l q ↔ ∃ m n, stateName m = p ∧ stateName n = q ∧ arena.Links m l n := by
  obtain rfl := Except.ok.inj h
  simp only [EpsilonNFA.moves_iff, EpsilonNFA.successors, EdgeTable.mem_successors_ofTriples,
    List.mem_map, Prod.mk.injEq]
  constructor
  · intro h
    obtain ⟨⟨m, l, n⟩, hmem, rfl, rfl, rfl⟩ := h
    exact ⟨m, n, rfl, rfl, hmem⟩
  · intro h
    obtain ⟨m, n, rfl, rfl, hmem⟩ := h
    exact ⟨⟨m, l, n⟩, hmem, rfl, rfl, rfl⟩

/-- The automaton recognizes the words of the traces between the numbered states. -/
theorem recognizes_of_finish (h : finish alphabet ⟨arena, [x]⟩ = .ok E) {w : Word} :
    E.Recognizes w ↔ ∃ f ∈ x.finals, Trace arena.Links x.start w f := by
  have hinitial : E.initial = stateName x.start := by
    obtain rfl := Except.ok.inj h
    rfl
  have hfinal (q : State) : q ∈ E.finals ↔ ∃ f ∈ x.finals, stateName f = q := by
    obtain rfl := Except.ok.inj h
    simp
  have hwords : wordsFrom E.Moves (stateName x.start) (· ∈ E.finals) =
      wordsFrom arena.Links x.start (· ∈ x.finals) := by
    refine wordsFrom_map stateName (fun _ => True) (fun _ _ _ _ _ => trivial) (fun m l t _ => ?_)
      (fun n _ => ?_) trivial
    · rw [moves_of_finish h]
      constructor
      · intro hmove
        obtain ⟨m', n, hsame, hn, hlink⟩ := hmove
        exact ⟨n, hn, stateName_injective hsame ▸ hlink⟩
      · intro hmove
        obtain ⟨n, hn, hlink⟩ := hmove
        exact ⟨m, n, rfl, hn, hlink⟩
    · rw [hfinal]
      exact ⟨fun ⟨f, hf, hsame⟩ => stateName_injective hsame ▸ hf, fun hn => ⟨n, hn, rfl⟩⟩
  rw [Automaton.Recognizes, hinitial, ← mem_wordsFrom, hwords]
  exact mem_wordsFrom

end Assembly

namespace Regex

/-- An expression whose literals belong to the alphabet has an automaton over this alphabet, and
the automaton recognizes the language of the expression. -/
theorem exists_toAutomaton (x : Regex) (alphabet : Alphabet)
    (hliterals : ∀ a ∈ x.literals, a ∈ alphabet) :
    ∃ E, x.toAutomaton alphabet = .ok E ∧ E.alphabet = alphabet ∧
      ∀ w, E.Recognizes w ↔ w ∈ x.language := by
  obtain ⟨made, hmade⟩ := x.exists_assemble hliterals .empty
  obtain ⟨E, hfinish, halphabet⟩ : ∃ E, Assembly.finish alphabet ⟨made.1, [made.2]⟩ = .ok E ∧
    E.alphabet = alphabet := ⟨_, rfl, rfl⟩
  refine ⟨E, toAutomaton_eq_ok_iff.mpr ⟨made, hmade, hfinish⟩, halphabet, fun w => ?_⟩
  rw [Assembly.recognizes_of_finish hfinish,
    (makes_of_assemble hmade Arena.bounded_empty).recognizes]

/-- An expression whose literals belong to the alphabet has an automaton that accepts exactly the
words that the expression denotes. -/
theorem toAutomaton_accepts_iff (x : Regex) (alphabet : Alphabet)
    (hliterals : ∀ a ∈ x.literals, a ∈ alphabet) :
    ∃ E, x.toAutomaton alphabet = .ok E ∧ ∀ w, E.accepts w = true ↔ w ∈ x.language := by
  obtain ⟨E, hE, -, hrecognizes⟩ := x.exists_toAutomaton alphabet hliterals
  exact ⟨E, hE, fun w => EpsilonNFA.accepts_iff.trans (hrecognizes w)⟩

/-- One or more repetitions of a repetition which may be empty have the automaton of their
language. -/
theorem toAutomaton_plus_star_accepts_iff :
    (∀ a ∈ (plus (star (union (literal 'a') epsilon))).literals, a ∈ Alphabet.ofText "ab") ∧
    ∃ E, (plus (star (union (literal 'a') epsilon))).toAutomaton (.ofText "ab") = .ok E ∧
      ∀ w, E.accepts w = true ↔ w ∈ (plus (star (union (literal 'a') epsilon))).language := by
  have hliterals : ∀ a ∈ (plus (star (union (literal 'a') epsilon))).literals,
      a ∈ Alphabet.ofText "ab" := by simp [literals, Alphabet.ofText]
  exact ⟨hliterals, toAutomaton_accepts_iff _ _ hliterals⟩

/-- An expression is made into an automaton only if its literals belong to the alphabet. -/
theorem mem_of_toAutomaton {x : Regex} {alphabet : Alphabet} {E : EpsilonNFA}
    (h : x.toAutomaton alphabet = .ok E) : ∀ a ∈ x.literals, a ∈ alphabet := by
  obtain ⟨made, hmade, -⟩ := toAutomaton_eq_ok_iff.mp h
  exact mem_of_assemble hmade

/-- The automaton of an expression has the alphabet that it was made for. -/
theorem alphabet_of_toAutomaton {x : Regex} {alphabet : Alphabet} {E : EpsilonNFA}
    (h : x.toAutomaton alphabet = .ok E) : E.alphabet = alphabet := by
  obtain ⟨E', hE', halphabet, -⟩ := x.exists_toAutomaton alphabet (mem_of_toAutomaton h)
  obtain rfl := Except.ok.inj (h.symm.trans hE')
  exact halphabet

/-- If an expression has an automaton, this recognizes the language of the expression. -/
theorem recognizes_of_toAutomaton {x : Regex} {alphabet : Alphabet} {E : EpsilonNFA}
    (h : x.toAutomaton alphabet = .ok E) (w : Word) : E.Recognizes w ↔ w ∈ x.language := by
  obtain ⟨E', hE', -, hrecognizes⟩ := x.exists_toAutomaton alphabet (mem_of_toAutomaton h)
  obtain rfl := Except.ok.inj (h.symm.trans hE')
  exact hrecognizes w

end Regex

namespace Pattern

/-- A pattern is compiled by reading it and making the automaton of its expression. -/
theorem Compiled.ofText_eq_ok_iff {rules : Rules} {pattern : String} {p : Compiled} :
    Compiled.ofText rules pattern = .ok p ↔ parse rules pattern = .ok p.regex ∧
      p.regex.toAutomaton rules.alphabet = .ok p.automaton ∧
        p.text = pattern ∧ p.rules = rules := by
  constructor
  · intro h
    unfold ofText at h
    split at h
    · contradiction
    rename_i hparse
    split at h
    · contradiction
    rename_i hmade
    obtain rfl := Except.ok.inj h
    exact ⟨hparse, hmade, rfl, rfl⟩
  · intro h
    obtain ⟨hparse, hmade, rfl, rfl⟩ := h
    simp only [ofText, hparse, hmade]

/-- A compiled pattern accepts the words of its expression. -/
theorem Compiled.accepts_iff {rules : Rules} {pattern : String} {p : Compiled}
    (h : Compiled.ofText rules pattern = .ok p) (w : Word) :
    p.accepts w = true ↔ w ∈ p.regex.language :=
  EpsilonNFA.accepts_iff.trans
    (Regex.recognizes_of_toAutomaton (Compiled.ofText_eq_ok_iff.mp h).2.1 w)

/-- A pattern that is compiled can be read, and its automaton accepts what it denotes. -/
theorem exists_parse_of_compile {pattern : String} {alphabet : Alphabet} {E : EpsilonNFA}
    (h : compile pattern alphabet = .ok E) :
    ∃ x, parse (.ofAlphabet alphabet) pattern = .ok x ∧
      ∀ w, E.accepts w = true ↔ w ∈ x.language := by
  cases hp : Compiled.ofText (.ofAlphabet alphabet) pattern with
  | error e => simp [compile, hp, Except.map] at h
  | ok p =>
    obtain rfl : p.automaton = E := by simpa [compile, hp, Except.map] using h
    exact ⟨p.regex, (Compiled.ofText_eq_ok_iff.mp hp).1, Compiled.accepts_iff hp⟩

end Pattern

end RegularLanguages
