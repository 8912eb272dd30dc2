import RegularLanguages.Automaton.Builder
import RegularLanguages.Automaton.Dictionary
import RegularLanguages.Proofs.Expressions
import RegularLanguages.Proofs.Soundness

/-!
# Automata made of data are sound

Parts, builders and dictionaries are checked before they become automata. Expressions are not: their
automata are sound because an operation reads a symbol only if it belongs to the alphabet, and
because the fragment that is left covers all states that were numbered.
-/

namespace RegularLanguages

section Checked

variable {T : Type} [TransitionTable T] [LawfulTransitionTable T] [CanonicalTable T]

/-- What a builder makes is sound, because its parts are checked. -/
theorem AutomatonBuilder.sound_of_build {b : AutomatonBuilder} {initial : State} {A : Automaton T}
    (h : b.build initial = .ok A) : A.Sound :=
  Automaton.sound_of_ofParts h

/-- An automaton that is read from a dictionary is sound, because its parts are checked. -/
theorem Dictionary.sound_of_toAutomaton {d : Dictionary} {A : Automaton T}
    (h : d.toAutomaton = .ok A) : A.Sound := by
  unfold toAutomaton at h
  split at h
  · contradiction
  · split at h
    · contradiction
    · exact Automaton.sound_of_ofParts h

/-- An automaton that is read from a text is sound, because it is read from a dictionary. -/
theorem Automaton.sound_of_ofText {text : String} {A : Automaton T} (h : ofText text = .ok A) :
    A.Sound := by
  unfold ofText at h
  split at h
  · exact Dictionary.sound_of_toAutomaton h
  · contradiction

end Checked

namespace AnyAutomaton

/-- What is made for a kind by a construction that can make all kinds. -/
def ofKind (kind : Kind)
    (make : (T : Type) → [TransitionTable T] → Except InvalidAutomaton (Automaton T)) :
    Except InvalidAutomaton AnyAutomaton :=
  match kind with
  | .dfa => (make DeterministicTable).map dfa
  | .nfa => (make NondeterministicTable).map nfa
  | .epsilonNFA => (make EpsilonTable).map epsilonNFA

/-- A construction that makes sound automata only makes a sound automaton for each kind. -/
theorem sound_of_ofKind {kind : Kind} {A : AnyAutomaton}
    {make : (T : Type) → [TransitionTable T] → Except InvalidAutomaton (Automaton T)}
    (hmake : ∀ (T : Type) [TransitionTable T] [LawfulTransitionTable T] [CanonicalTable T]
      (A : Automaton T), make T = .ok A → A.Sound)
    (h : ofKind kind make = .ok A) : A.Sound := by
  cases kind <;>
  · obtain ⟨B, hmade, rfl⟩ := exists_of_map_eq_ok h
    exact hmake _ B hmade

end AnyAutomaton

/-- An automaton that is read from a dictionary as one of any kind is sound. -/
theorem Dictionary.sound_of_toKind {d : Dictionary} {kind : Kind} {A : AnyAutomaton}
    (h : d.toKind kind = .ok A) : A.Sound := by
  have hkind : d.toKind kind = AnyAutomaton.ofKind kind fun T _ => d.toAutomaton (T := T) := by
    cases kind <;> rfl
  exact AnyAutomaton.sound_of_ofKind (fun _ _ _ _ _ => sound_of_toAutomaton) (hkind ▸ h)

/-- An automaton that is read from a text, whatever its kind, is sound. -/
theorem AnyAutomaton.sound_of_ofText {text : String} {A : AnyAutomaton}
    (h : AnyAutomaton.ofText text = .ok A) : A.Sound := by
  unfold AnyAutomaton.ofText at h
  split at h
  · exact Dictionary.sound_of_toKind h
  · contradiction

/-! ## Expressions -/

/-- All symbols that are read belong to the alphabet. -/
def Arena.ReadsOnly (alphabet : Alphabet) (arena : Arena) : Prop :=
  ∀ m a n, arena.Links m (.symbol a) n → a ∈ alphabet

namespace Arena.ReadsOnly

variable {alphabet : Alphabet} {arena : Arena}

/-- A concatenation reads nothing new, since its new moves are empty. -/
theorem concat (h : arena.ReadsOnly alphabet) (x y : Fragment) :
    (arena.concat x y).1.ReadsOnly alphabet := by
  intro m a n hlink
  simpa using h m a n (by simpa [links_concat] using hlink)

/-- A union reads nothing new, since its new moves are empty. -/
theorem union (h : arena.ReadsOnly alphabet) (x y : Fragment) :
    (arena.union x y).1.ReadsOnly alphabet := by
  intro m a n hlink
  exact h m a n (by simpa [links_union] using hlink)

/-- A repetition reads nothing new, since its new moves are empty. -/
theorem star (h : arena.ReadsOnly alphabet) (x : Fragment) :
    (arena.star x).1.ReadsOnly alphabet := by
  intro m a n hlink
  exact h m a n (by simpa [links_star] using hlink)

/-- A copy reads what is copied. -/
theorem duplicate (h : arena.ReadsOnly alphabet) (x : Fragment) :
    (arena.duplicate x).1.ReadsOnly alphabet := by
  intro m a n hlink
  rcases links_duplicate.mp hlink with ⟨m', n', -, hlink, -, -⟩ | hlink
  · exact h m' a n' hlink
  · exact h m a n hlink

end Arena.ReadsOnly

namespace Assembly

variable {alphabet : Alphabet} {s t : Assembly}

/-- An operation reads no symbol outside the alphabet. -/
theorem readsOnly_of_step (hs : s.arena.ReadsOnly alphabet) {operation : FragmentOperation}
    (h : s.step alphabet operation = .ok t) : t.arena.ReadsOnly alphabet := by
  have hunary {f : Arena → Fragment → Arena × Fragment}
      (hf : ∀ x, (f s.arena x).1.ReadsOnly alphabet) (h : s.unary f = .ok t) :
      t.arena.ReadsOnly alphabet := by
    unfold unary at h
    split at h
    · obtain rfl := Except.ok.inj h
      exact hf _
    · contradiction
  have hbinary {f : Arena → Fragment → Fragment → Arena × Fragment}
      (hf : ∀ x y, (f s.arena x y).1.ReadsOnly alphabet) (h : s.binary f = .ok t) :
      t.arena.ReadsOnly alphabet := by
    unfold binary at h
    split at h
    · obtain rfl := Except.ok.inj h
      exact hf _ _
    · contradiction
  cases operation with
  | literal a =>
    rw [step] at h
    split at h
    · rename_i ha
      obtain rfl := Except.ok.inj h
      intro m b n hlink
      rcases Arena.links_link.mp hlink with ⟨-, hb, -⟩ | hlink
      · obtain rfl := Label.symbol.inj hb
        exact Std.ExtTreeSet.contains_iff_mem.mp ha
      · exact hs m b n hlink
    · contradiction
  | epsilon | empty =>
    obtain rfl := Except.ok.inj h
    exact hs
  | union => exact hbinary hs.union h
  | concat => exact hbinary hs.concat h
  | star => exact hunary hs.star h
  | plus => exact hunary (fun x => ((hs.duplicate x).star _).concat _ _) h
  | optional =>
    have hadded : s.arena.addState.ReadsOnly alphabet := hs
    exact hunary (fun x => hadded.union x _) h

/-- A program reads no symbol outside the alphabet. -/
theorem readsOnly_of_run {program : List FragmentOperation} (hs : s.arena.ReadsOnly alphabet)
    (h : s.run alphabet program = .ok t) : t.arena.ReadsOnly alphabet := by
  induction program generalizing s with
  | nil =>
    obtain rfl := Except.ok.inj h
    exact hs
  | cons operation rest ih =>
    rw [run] at h
    split at h
    · contradiction
    · rename_i next hstep
      exact ih (readsOnly_of_step hs hstep) h

/-- The automaton of a fragment that was added to nothing is sound. -/
theorem sound_of_finish {arena : Arena} {x : Fragment} (hplaces : Arena.Places .empty arena x)
    (hreads : arena.ReadsOnly alphabet) {E : EpsilonNFA}
    (h : finish alphabet ⟨arena, [x]⟩ = .ok E) : E.Sound := by
  have hname {n : Nat} (hn : n < arena.size) :
      stateName n ∈ StateSet.ofList ((List.range arena.size).map stateName) :=
    StateSet.mem_ofList.mpr (List.mem_map_of_mem (List.mem_range.mpr hn))
  obtain rfl := Except.ok.inj h
  refine ⟨EpsilonNFA.wellFormed_ofTriples (hname hplaces.start_new.2) ?_ ?_,
    EdgeTable.canonical_ofTriples _⟩
  · intro q hq
    obtain ⟨f, hf, rfl⟩ := List.mem_map.mp (StateSet.mem_ofList.mp hq)
    exact hname (hplaces.finals_new f hf).2
  · intro p l q hmem
    obtain ⟨⟨m, l, n⟩, hlink, hedge⟩ := List.mem_map.mp hmem
    obtain ⟨rfl, rfl, rfl⟩ := by simpa using hedge
    have hends := hplaces.new m l n (Nat.zero_le m) hlink
    refine ⟨hname hends.1, fun a ha => ?_, hname hends.2.2⟩
    subst ha
    exact hreads m a n hlink

end Assembly

/-- The automaton of an expression is sound. -/
theorem Regex.sound_of_toAutomaton {x : Regex} {alphabet : Alphabet} {E : EpsilonNFA}
    (h : x.toAutomaton alphabet = .ok E) : E.Sound := by
  obtain ⟨made, hmade, hfinish⟩ := toAutomaton_eq_ok_iff.mp h
  have hrun : Assembly.start.run alphabet (x.program []) = .ok ⟨made.1, [made.2]⟩ := by
    rw [run_start, hmade, ok_bind]
  have hnothing : Arena.empty.ReadsOnly alphabet := fun _ _ _ h => absurd h Arena.not_links_empty
  exact Assembly.sound_of_finish (makes_of_assemble hmade Arena.bounded_empty).toPlaces
    (Assembly.readsOnly_of_run hnothing hrun) hfinish

/-- The automaton of a pattern is sound. -/
theorem Pattern.Compiled.sound_of_ofText {rules : Rules} {pattern : String} {p : Compiled}
    (h : ofText rules pattern = .ok p) : p.automaton.Sound :=
  Regex.sound_of_toAutomaton (ofText_eq_ok_iff.mp h).2.1

/-- What a pattern compiles to is sound. -/
theorem Pattern.sound_of_compile {pattern : String} {alphabet : Alphabet} {E : EpsilonNFA}
    (h : compile pattern alphabet = .ok E) : E.Sound := by
  obtain ⟨p, hread, rfl⟩ := exists_of_map_eq_ok h
  exact Compiled.sound_of_ofText hread

end RegularLanguages
