import RegularLanguages.Proofs.Joins
import RegularLanguages.Proofs.Kinds

/-!
# Copies of automata, and their union

An automaton with a tag in front of the names of its states recognizes what it recognized, and lies
among the names with this tag. No name begins with two different tags of the same length, so two
copies share no states, whatever their states were called before. A union joins two such copies,
and its first state begins with neither tag.
-/

namespace RegularLanguages

/-- New names for different states keep their number. -/
theorem StateSet.size_image {f : State → State} (hf : Function.Injective f) (states : StateSet) :
    (image f states).size = states.size :=
  calc (image f states).size
      = (states.toList.map f).length :=
        FiniteSet.size_ofList ((FiniteSet.nodup_toList states).map hf)
    _ = states.size := by rw [List.length_map, Std.ExtTreeSet.length_toList]

namespace State

/-- The name begins with the tag. -/
def HasTag (tag : String) (q : State) : Prop := tag.toList <+: q.toList

instance (tag : String) (q : State) : Decidable (HasTag tag q) :=
  inferInstanceAs (Decidable (tag.toList <+: q.toList))

/-- A name with a tag in front has the tag. -/
theorem hasTag_append (tag : String) (q : State) : HasTag tag (tag ++ q) := by
  rw [HasTag, String.toList_append]
  exact List.prefix_append _ _

/-- A name does not begin with two different tags of the same length. -/
theorem HasTag.eq_of_length_eq {tag tag' : String} {q : State}
    (hlength : tag.toList.length = tag'.toList.length) (h : HasTag tag q) (h' : HasTag tag' q) :
    tag = tag' :=
  String.toList_inj.mp ((List.prefix_of_prefix_length_le h h' hlength.le).eq_of_length hlength)

/-- Putting a tag in front of names does not identify any. -/
theorem append_injective (tag : String) : Function.Injective fun q : State => tag ++ q := by
  intro p q h
  have hchars : tag.toList ++ p.toList = tag.toList ++ q.toList := by
    simpa only [String.toList_append] using congrArg String.toList h
  exact String.toList_inj.mp (List.append_cancel_left hchars)

end State

namespace EpsilonNFA

variable {E : EpsilonNFA} {f : State → State} {p q : State} {l : Label}

/-- The moves between renamed states are those between the states. -/
theorem moves_rename : (Automaton.rename E f).Moves p l q ↔
    ∃ p' q', E.Moves p' l q' ∧ f p' = p ∧ f q' = q := by
  simp only [moves_iff]
  exact EdgeTable.mem_successors_rename

/-- Other names for the states do not change what is recognized. -/
theorem language_rename (hf : Function.Injective f) :
    (Automaton.rename E f).language = E.language := by
  refine wordsFrom_map f (fun _ => True) (fun _ _ _ _ _ => trivial) (fun p l t _ => ?_)
    (fun q _ => ?_) trivial
  · rw [moves_rename]
    constructor
    · intro h
      obtain ⟨p', q, hmove, hsame, hq⟩ := h
      exact ⟨q, hq, hf hsame ▸ hmove⟩
    · intro h
      obtain ⟨q, hq, hmove⟩ := h
      exact ⟨p, q, hmove, rfl, hq⟩
  · rw [Automaton.rename, StateSet.mem_image]
    exact ⟨fun ⟨p, hp, hsame⟩ => hf hsame ▸ hp, fun hq => ⟨q, hq, rfl⟩⟩

/-- A copy recognizes what the automaton recognizes. -/
theorem language_tagged (E : EpsilonNFA) (tag : String) : (E.tagged tag).language = E.language :=
  language_rename (State.append_injective tag)

/-- A copy mentions states with its tag only. -/
theorem liesIn_tagged (E : EpsilonNFA) (tag : String) :
    (E.tagged tag).LiesIn (State.HasTag tag) := by
  have himage : ∀ states : StateSet,
      ∀ q ∈ StateSet.image (fun q => tag ++ q) states, State.HasTag tag q := by
    intro states q hq
    obtain ⟨p, -, rfl⟩ := StateSet.mem_image.mp hq
    exact State.hasTag_append tag p
  refine ⟨himage E.states, State.hasTag_append tag E.initial, himage E.finals, ?_⟩
  intro p l q hmove
  obtain ⟨p', q', -, rfl, rfl⟩ := moves_rename.mp hmove
  exact ⟨State.hasTag_append tag p', State.hasTag_append tag q'⟩

/-- Tags do not change the number of states. -/
theorem size_tagged (E : EpsilonNFA) (tag : String) : (E.tagged tag).size = E.size :=
  StateSet.size_image (State.append_injective tag) E.states

/-- The tags of the operands of a union or a sequence begin no common name. -/
theorem tags_apart (q : State) : State.HasTag "1_" q → ¬State.HasTag "2_" q :=
  fun h h' => absurd (h.eq_of_length_eq (by decide) h') (by decide)

/-- Alternatives have the states of both automata and a first one. -/
theorem size_alternatives {L R : EpsilonNFA} {left right : State → Prop} {first : State}
    (hL : L.LiesIn left) (hR : R.LiesIn right) (hapart : ∀ q, left q → ¬right q)
    (hfirstL : ¬left first) (hfirstR : ¬right first) :
    (alternatives first L R).size = L.size + R.size + 1 := by
  have hnew : first ∉ L.states ∪ R.states := by
    rw [Std.ExtTreeSet.mem_union_iff, not_or]
    exact ⟨fun h => hfirstL (hL.states first h), fun h => hfirstR (hR.states first h)⟩
  calc (alternatives first L R).size
      = (L.states ∪ R.states).size + 1 := FiniteSet.size_insert hnew
    _ = L.size + R.size + 1 := by
        rw [FiniteSet.size_union fun q hl hr => hapart q (hL.states q hl) (hR.states q hr)]
        rfl

end EpsilonNFA

namespace AnyAutomaton

/-- Read as one with empty moves, an automaton recognizes what it accepts. -/
theorem language_toEpsilonNFA (A : AnyAutomaton) : A.toEpsilonNFA.language = A.language := by
  refine Language.ext fun w => ?_
  rw [Automaton.mem_language, mem_language, accepts_iff]
  cases A with
  | dfa D => exact (D.sameParts_toEpsilonNFA.recognizes_iff w).symm
  | nfa N => exact (N.sameParts_toEpsilonNFA.recognizes_iff w).symm
  | epsilonNFA E => exact .rfl

end AnyAutomaton

variable {l r : AnyAutomaton}

/-- Over one alphabet, a union joins a copy of each automaton. -/
theorem union_eq_ok (h : l.alphabet = r.alphabet) : union l r =
    .ok (.alternatives "union_initial" (l.toEpsilonNFA.tagged "1_")
      (r.toEpsilonNFA.tagged "2_")) := by
  rw [union, sameAlphabet, if_pos h]

/-- Over different alphabets, there is no union. -/
theorem union_eq_error (h : l.alphabet ≠ r.alphabet) :
    union l r = .error (.incompatible l.alphabet r.alphabet) := by
  rw [union, sameAlphabet, if_neg h]

/-- A union recognizes the words that one of the automata accepts. -/
theorem language_of_union {E : EpsilonNFA} (h : union l r = .ok E) :
    E.language = l.language + r.language := by
  by_cases halphabet : l.alphabet = r.alphabet
  · rw [union_eq_ok halphabet] at h
    obtain rfl := Except.ok.inj h
    rw [EpsilonNFA.language_alternatives (EpsilonNFA.liesIn_tagged _ "1_")
      (EpsilonNFA.liesIn_tagged _ "2_") EpsilonNFA.tags_apart (by decide) (by decide),
      EpsilonNFA.language_tagged, EpsilonNFA.language_tagged, AnyAutomaton.language_toEpsilonNFA,
      AnyAutomaton.language_toEpsilonNFA]
  · rw [union_eq_error halphabet] at h
    contradiction

/-- A union accepts a word if one of the automata does. -/
theorem accepts_of_union {E : EpsilonNFA} (h : union l r = .ok E) (w : Word) :
    E.accepts w = (l.accepts w || r.accepts w) := by
  have hword : w ∈ E.language ↔ w ∈ l.language ∨ w ∈ r.language := by
    rw [language_of_union h, Language.mem_add]
  rw [Bool.eq_iff_iff, Bool.or_eq_true, EpsilonNFA.accepts_iff]
  exact hword

/-- The union of two automata of any kinds over one alphabet accepts the words that one of them
accepts, and has one state more than both together. The names of the states do not matter. Automata
with different alphabets are refused. -/
theorem union_accepts_what_either_accepts (l r : AnyAutomaton) :
    (l.alphabet = r.alphabet → ∃ E, union l r = .ok E ∧
      (∀ w, E.accepts w = (l.accepts w || r.accepts w)) ∧ E.size = l.size + r.size + 1) ∧
    (l.alphabet ≠ r.alphabet → union l r = .error (.incompatible l.alphabet r.alphabet)) := by
  refine ⟨fun halphabet => ?_, union_eq_error⟩
  have hunion := union_eq_ok halphabet
  refine ⟨_, hunion, accepts_of_union hunion, ?_⟩
  rw [EpsilonNFA.size_alternatives (EpsilonNFA.liesIn_tagged _ "1_")
    (EpsilonNFA.liesIn_tagged _ "2_") EpsilonNFA.tags_apart (by decide) (by decide),
    EpsilonNFA.size_tagged, EpsilonNFA.size_tagged]
  simp [Automaton.size, AnyAutomaton.size]

/-- The operands have states of the same names, names that begin with a tag, and one with the name
of the first state of a union. The union keeps their words apart. -/
theorem union_of_automata_with_tagged_names :
    let D : DFA := ⟨.ofList ["p", "1_p", "2_p"], .ofText "ab",
      .ofTriples [("p", 'a', "1_p"), ("1_p", 'a', "2_p")], "p", .ofList ["2_p"]⟩
    let E : EpsilonNFA := ⟨.ofList ["p", "1_p", "union_initial"], .ofText "ab",
      .ofTriples [("union_initial", .epsilon, "p"), ("p", .symbol 'b', "1_p"),
        ("1_p", .epsilon, "union_initial")], "union_initial", .ofList ["1_p"]⟩
    let F : NFA := ⟨.ofList ["p"], .ofText "b", .ofTriples [], "p", .ofList ["p"]⟩
    (∃ U, union D E = .ok U ∧ U.accepts ['a', 'a'] = true ∧ U.accepts ['b', 'b'] = true ∧
      U.accepts ['a', 'b'] = false ∧ U.size = 7) ∧
      union D F = .error (.incompatible (.ofText "ab") (.ofText "b")) := by
  intro D E F
  obtain ⟨hsame, -⟩ := union_accepts_what_either_accepts D E
  obtain ⟨U, hU, haccepts, hsize⟩ := hsame rfl
  obtain ⟨-, hrefused⟩ := union_accepts_what_either_accepts D F
  refine ⟨⟨U, hU, ?_, ?_, ?_, hsize.trans (by decide +kernel)⟩, hrefused (by decide +kernel)⟩
  · exact (haccepts _).trans (by decide +kernel)
  · exact (haccepts _).trans (by decide +kernel)
  · exact (haccepts _).trans (by decide +kernel)

end RegularLanguages
