import RegularLanguages.Operations.Regular
import RegularLanguages.Proofs.Regions
import RegularLanguages.Proofs.WellFormed

/-!
# Automata that are joined by empty moves

Alternatives, sequences and repetitions put the transitions of their operands into one table and add
empty moves from and to states that the operands do not have. If the operands share no states, each
of them occupies a region of the result, and the languages of the results are the sum, the product
and the repetition of those of the operands.
-/

namespace RegularLanguages

open scoped Computability

namespace EdgeTable

variable {L : Type} [Ord L] [Std.TransOrd L] [Std.LawfulEqOrd L]

/-- Renaming takes the ends of transitions to their new names. -/
theorem mem_successors_rename {t : EdgeTable L} {f : State → State} {p q : State} {l : L} :
    q ∈ (t.rename f).successors p l ↔
      ∃ p' q', q' ∈ t.successors p' l ∧ f p' = p ∧ f q' = q := by
  simp only [rename, mem_successors_ofTriples, List.mem_map, Prod.exists, mem_triples,
    Prod.mk.injEq]
  constructor
  · intro h
    obtain ⟨p', l, q', hq, rfl, rfl, rfl⟩ := h
    exact ⟨p', q', hq, rfl, rfl⟩
  · intro h
    obtain ⟨p', q', hq, rfl, rfl⟩ := h
    exact ⟨p', l, q', hq, rfl, rfl, rfl⟩

end EdgeTable

/-- The words that an automaton recognizes. -/
def Automaton.language {T : Type} [TransitionTable T] (A : Automaton T) : Language Symbol :=
  wordsFrom A.Moves A.initial (· ∈ A.finals)

/-- The language of an automaton is made of the words it recognizes. -/
theorem Automaton.mem_language {T : Type} [TransitionTable T] {A : Automaton T} {w : Word} :
    w ∈ A.language ↔ A.Recognizes w := .rfl

namespace AnyAutomaton

/-- The words that an automaton of any kind accepts. -/
def language (A : AnyAutomaton) : Language Symbol := {w | A.accepts w = true}

/-- The language of an automaton of any kind is made of the words it accepts. -/
theorem mem_language {A : AnyAutomaton} {w : Word} : w ∈ A.language ↔ A.accepts w = true := .rfl

/-- An automaton with empty moves accepts what it recognizes. -/
theorem language_epsilonNFA (E : EpsilonNFA) : (epsilonNFA E).language = E.language :=
  Language.ext fun _ => EpsilonNFA.accepts_iff

end AnyAutomaton

namespace EpsilonNFA

variable {L R E : EpsilonNFA} {t u : EpsilonTable} {p q : State} {l : Label}

/-- The joined transitions of two tables are the transitions of either. -/
theorem mem_successors_merge :
    q ∈ (merge t u).successors p l ↔ q ∈ u.successors p l ∨ q ∈ t.successors p l := by
  rw [merge, EdgeTable.mem_successors_addAll, EdgeTable.mem_triples]

/-- Empty moves from some states to one state are added to the transitions. -/
theorem mem_successors_moves {sources : StateSet} {target : State} :
    q ∈ (moves t sources target).successors p l ↔
      (p ∈ sources ∧ l = .epsilon ∧ q = target) ∨ q ∈ t.successors p l := by
  simp only [moves, EdgeTable.mem_successors_addAll, List.mem_map, Prod.mk.injEq,
    Std.ExtTreeSet.mem_toList]
  refine or_congr_left ⟨?_, ?_⟩
  · intro h
    obtain ⟨p, hp, rfl, rfl, rfl⟩ := h
    exact ⟨hp, rfl, rfl⟩
  · intro h
    obtain ⟨hp, rfl, rfl⟩ := h
    exact ⟨p, hp, rfl, rfl, rfl⟩

/-- Alternatives are entered from the first state, by an empty move to either automaton. -/
theorem moves_alternatives {first : State} : (alternatives first L R).Moves p l q ↔
    (p = first ∧ l = .epsilon ∧ (q = L.initial ∨ q = R.initial)) ∨
      L.Moves p l q ∨ R.Moves p l q := by
  simp only [moves_iff, successors, alternatives, EdgeTable.mem_successors_add,
    mem_successors_merge]
  tauto

/-- A sequence is entered from the first state, and its first automaton is left for the second one
by empty moves from its final states. -/
theorem moves_sequence {first : State} : (sequence first L R).Moves p l q ↔
    (p = first ∧ l = .epsilon ∧ q = L.initial) ∨ (p ∈ L.finals ∧ l = .epsilon ∧ q = R.initial) ∨
      L.Moves p l q ∨ R.Moves p l q := by
  simp only [moves_iff, successors, sequence, EdgeTable.mem_successors_add, mem_successors_merge,
    mem_successors_moves]
  tauto

/-- Where a repetition may begin or may end once, empty moves let it go on or come to its end. -/
theorem moves_repetition {first last : State} : (repetition first last E).Moves p l q ↔
    (l = .epsilon ∧ (p = first ∨ p ∈ E.finals) ∧ (q = E.initial ∨ q = last)) ∨
      E.Moves p l q := by
  simp only [moves_iff, successors, repetition, EdgeTable.mem_successors_add,
    mem_successors_moves]
  tauto

/-- All states that an automaton mentions lie in a region. -/
structure LiesIn (E : EpsilonNFA) (region : State → Prop) : Prop where
  states : ∀ q ∈ E.states, region q
  initial : region E.initial
  finals : ∀ q ∈ E.finals, region q
  ends : ∀ p l q, E.Moves p l q → region p ∧ region q

/-- A well-formed automaton mentions its states only. -/
theorem liesIn_states (hE : E.WellFormed) : E.LiesIn (· ∈ E.states) where
  states _ hq := hq
  initial := hE.initial_mem
  finals := hE.finals_subset
  ends p l q hmove := ⟨hE.source_mem p l q hmove, hE.target_mem p l q hmove⟩

namespace LiesIn

variable {region : State → Prop} (h : E.LiesIn region)
include h

/-- No move starts outside the region of an automaton. -/
theorem not_moves (hp : ¬region p) : ¬E.Moves p l q :=
  fun hmove => hp (h.ends p l q hmove).1

/-- No state outside the region of an automaton is final. -/
theorem notMem_finals (hq : ¬region q) : q ∉ E.finals := fun hfinal => hq (h.finals q hfinal)

/-- The region is enclosed by all moves that add nothing but exits to those from its states. -/
theorem encloses {outer : State → Label → State → Prop} {exits : State → State → Prop}
    (houter : ∀ p l q, region p → (outer p l q ↔ (l = .epsilon ∧ exits p q) ∨ E.Moves p l q)) :
    Encloses region E.Moves outer exits where
  stays p l q _ hmove := (h.ends p l q hmove).2
  moves_iff p l q hp := by rw [houter p l q hp, or_comm]

end LiesIn

section Two

variable {left right : State → Prop} {first : State} (hL : L.LiesIn left) (hR : R.LiesIn right)
  (hapart : ∀ q, left q → ¬right q) (hfirstL : ¬left first) (hfirstR : ¬right first)
include hL hR hapart hfirstL hfirstR

/-- Alternatives recognize the words of either automaton. -/
theorem language_alternatives : (alternatives first L R).language = L.language + R.language := by
  refine wordsFrom_alternatives (hL.encloses ?_) (hR.encloses ?_) ?_ hL.initial hR.initial ?_ ?_ ?_
  · intro p l q hp
    have hne : p ≠ first := fun h => hfirstL (h ▸ hp)
    simp only [moves_alternatives, hne, hR.not_moves (hapart p hp), false_and, and_false, false_or,
      or_false]
  · intro p l q hp
    have hne : p ≠ first := fun h => hfirstR (h ▸ hp)
    have hnot := hL.not_moves (l := l) (q := q) fun h => hapart p h hp
    simp only [moves_alternatives, hne, hnot, false_and, and_false, false_or]
  · intro l q
    change (alternatives first L R).Moves first l q ↔ _
    simp only [moves_alternatives, hL.not_moves hfirstL, hR.not_moves hfirstR, true_and, or_false]
  · change first ∉ L.finals ∪ R.finals
    simp [hL.notMem_finals hfirstL, hR.notMem_finals hfirstR]
  · intro f hf
    change f ∈ L.finals ∪ R.finals ↔ f ∈ L.finals
    simp [hR.notMem_finals (hapart f hf)]
  · intro f hf
    change f ∈ L.finals ∪ R.finals ↔ f ∈ R.finals
    simp [hL.notMem_finals fun h => hapart f h hf]

/-- A sequence recognizes a word of the first automaton and then one of the second. -/
theorem language_sequence : (sequence first L R).language = L.language * R.language := by
  have hfinals : ∀ f ∈ R.finals, ¬left f := fun f hf h => hapart f h (hR.finals f hf)
  have henter : ∀ l q, (sequence first L R).Moves first l q ↔ l = .epsilon ∧ q = L.initial := by
    simp only [moves_sequence, hL.not_moves hfirstL, hR.not_moves hfirstR,
      hL.notMem_finals hfirstL, true_and, false_and, or_false, implies_true]
  refine (wordsFrom_enters henter (hR.notMem_finals hfirstR)).trans ?_
  refine wordsFrom_sequence (hL.encloses ?_) (hR.encloses ?_) hL.initial hR.initial hfinals
  · intro p l q hp
    have hne : p ≠ first := fun h => hfirstL (h ▸ hp)
    simp only [moves_sequence, hne, hR.not_moves (hapart p hp), false_and, false_or, or_false]
    tauto
  · intro p l q hp
    have hne : p ≠ first := fun h => hfirstR (h ▸ hp)
    have hnot : ¬left p := fun h => hapart p h hp
    simp only [moves_sequence, hne, hL.not_moves hnot, hL.notMem_finals hnot, false_and, and_false,
      false_or]

end Two

/-- A repetition recognizes any number of words of the automaton one after the other. -/
theorem language_repetition {region : State → Prop} {first last : State} (hE : E.LiesIn region)
    (hfirst : ¬region first) (hlast : ¬region last) (hne : last ≠ first) :
    (repetition first last E).language = E.language∗ := by
  have hend : (repetition first last E).language =
      wordsFrom (repetition first last E).Moves first (· = last) :=
    Language.ext fun w => exists_congr fun q => and_congr_left' StateSet.mem_single
  rw [hend]
  refine wordsFrom_repetition (hE.encloses ?_) ?_ hE.initial hlast hne ?_
  · intro p l q hp
    have hne : p ≠ first := fun h => hfirst (h ▸ hp)
    simp only [moves_repetition, hne, false_or]
  · intro l q
    simp only [moves_repetition, hE.not_moves hfirst, true_or, true_and, or_false]
  · intro l q
    simp only [moves_repetition, hE.not_moves hlast, hE.notMem_finals hlast, hne, or_self,
      false_and, and_false, not_false_eq_true]

/-- A state without transitions that is initial and final recognizes the empty word. -/
theorem language_emptyWord (alphabet : Alphabet) (q : State) :
    (emptyWord alphabet q).language = 1 := by
  have hsink : ∀ l r, ¬(emptyWord alphabet q).Moves q l r := by
    simp [moves_iff, successors, emptyWord]
  refine Language.ext fun w => ?_
  rw [Automaton.mem_language, Language.mem_one]
  constructor
  · intro h
    obtain ⟨r, -, htrace⟩ := h
    exact (htrace.of_sink hsink).1
  · intro h
    subst h
    exact ⟨q, StateSet.mem_single.mpr rfl, .refl q⟩

end EpsilonNFA

end RegularLanguages
