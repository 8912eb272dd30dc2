import RegularLanguages.Proofs.Completion
import RegularLanguages.Proofs.Soundness
import RegularLanguages.Proofs.Sprouts

/-!
# Random automata

All that random automata need of their draws is that numbers drawn below a number are below it; then
every transition leads between states that have been made. A random deterministic automaton has no
more states than it may have, each of them has a transition on each symbol, and a word leads to each
of them.
-/

namespace RegularLanguages

namespace Random

variable {γ : Type} {draws : Draws γ} {alphabet : Alphabet}

/-- The names of a number of states are those of the smaller numbers. -/
theorem mem_stateNames {size : Nat} {q : State} :
    q ∈ stateNames size ↔ ∃ n < size, stateName n = q := by
  simp [stateNames]

/-- Whether or not the first member is taken, what is taken is among the members. -/
theorem forall_mem_of_taken {α : Type} {x : α} {items others : List α} (taken : Bool)
    (h : ∀ y ∈ others, y ∈ items) :
    ∀ y ∈ if taken then x :: others else others, y ∈ x :: items := by
  intro y hy
  split at hy
  · exact List.mem_cons.mpr ((List.mem_cons.mp hy).imp id (h y))
  · exact List.mem_cons_of_mem x (h y hy)

/-- What is taken from a list by coins belongs to the list. -/
theorem always_someOf {α : Type} (items : List α) :
    Always (someOf draws items) fun taken => ∀ x ∈ taken, x ∈ items := by
  induction items with
  | nil => exact .pure fun _ => id
  | cons x items ih =>
    exact .bind (.trivial _) fun taken _ => .bind ih fun others hothers =>
      .pure (forall_mem_of_taken taken hothers)

/-- What is taken from a list with some probability belongs to the list. -/
theorem always_chosen {α : Type} (p : Float) (items : List α) :
    Always (chosen draws p items) fun taken => ∀ x ∈ taken, x ∈ items := by
  induction items with
  | nil => exact .pure fun _ => id
  | cons x items ih =>
    exact .bind (.trivial _) fun taken _ => .bind ih fun others hothers =>
      .pure (forall_mem_of_taken taken hothers)

/-! ## Random deterministic automata -/

/-- Different numbers name different states. -/
theorem stateName_injective : Function.Injective stateName := State.append_repr_injective "q"

namespace Sprout

/-- The automaton with the states and transitions of a sprout. -/
def toDFA (s : Sprout) (alphabet : Alphabet) (finals : List State) : DFA where
  states := .ofList (stateNames s.size)
  alphabet := alphabet
  transitions := .ofTriples (s.triples.map fun (q, a, r) => (stateName q, a, stateName r))
  initial := stateName 0
  finals := .ofList finals

variable {s : Sprout} {finals : List State} {room : Nat}

/-- The automaton of a sprout has the names of the states that were made. -/
theorem mem_states_toDFA {q : State} :
    q ∈ (s.toDFA alphabet finals).states ↔ ∃ n < s.size, stateName n = q :=
  StateSet.mem_ofList.trans mem_stateNames

/-- A random automaton is that of the sprout at the end of the loop. -/
theorem exists_expands (hdraws : draws.Lawful) (alphabet : Alphabet) (p : Float) (maxSize : Nat)
    (g : γ) : ∃ s g', Expands draws p (max maxSize 1) alphabet.toList 0 ⟨1, []⟩ g s g' ∧
      (dfaOver draws alphabet p maxSize g).1 =
        s.toDFA alphabet (someOf draws (stateNames s.size) g').1 :=
  ⟨_, _, expands_growAll hdraws p (FiniteSet.nodup_toList alphabet) (Nat.le_add_right _ 0)
    (Tended.start (by omega) _) g, rfl⟩

namespace Tended

/-- The automaton of a sprout is sound. -/
theorem sound_toDFA (h : s.Tended room alphabet.toList s.size [])
    (hfinals : ∀ q ∈ finals, q ∈ stateNames s.size) : (s.toDFA alphabet finals).Sound := by
  refine ⟨DFA.wellFormed_ofTriples ?_ ?_ ?_, DeterministicTable.canonical_ofTriples _⟩
  · exact StateSet.mem_ofList.mpr (mem_stateNames.mpr ⟨0, h.size_pos, rfl⟩)
  · exact fun q hq => StateSet.mem_ofList.mpr (hfinals q (StateSet.mem_ofList.mp hq))
  · simp only [List.mem_map, Prod.exists, Prod.mk.injEq, StateSet.mem_ofList, mem_stateNames]
    intro _ _ _ hmem
    obtain ⟨q, a, r, hmem, rfl, rfl, rfl⟩ := hmem
    obtain ⟨hq, ha, hr⟩ := h.of_mem hmem
    exact ⟨⟨q, hq, rfl⟩, Std.ExtTreeSet.mem_toList.mp ha, ⟨r, hr, rfl⟩⟩

/-- The transitions of the automaton are those of the sprout. -/
theorem successor?_toDFA (h : s.Tended room alphabet.toList s.size []) {q r : Nat} {a : Symbol}
    (hmem : (q, a, r) ∈ s.triples) :
    (s.toDFA alphabet finals).successor? (stateName q) a = some (stateName r) := by
  refine (DeterministicTable.successor?_ofTriples ?_).mpr (List.mem_map.mpr ⟨_, hmem, rfl⟩)
  simp only [List.mem_map, Prod.exists, Prod.mk.injEq]
  intro _ _ _ _ hfirst hsecond
  obtain ⟨q, a, r, hr, rfl, rfl, rfl⟩ := hfirst
  obtain ⟨q', a', r', hr', hq, rfl, rfl⟩ := hsecond
  obtain rfl := stateName_injective hq
  rw [h.unique _ _ _ _ hr hr']

/-- Every state of the automaton has a transition on every symbol. -/
theorem isComplete_toDFA (h : s.Tended room alphabet.toList s.size []) :
    (s.toDFA alphabet finals).isComplete = true := by
  rw [DFA.isComplete_iff]
  intro q hq a ha
  obtain ⟨n, hn, rfl⟩ := mem_states_toDFA.mp hq
  obtain ⟨r, hr⟩ := (h.exists_iff n a).mpr (.inl ⟨hn, Std.ExtTreeSet.mem_toList.mpr ha⟩)
  rw [h.successor?_toDFA hr]
  rfl

/-- A word leads to every state: it leads to an earlier one from which the state was entered, and
goes on with the symbol on which it was entered. -/
theorem exists_run_toDFA (h : s.Tended room alphabet.toList s.size []) {n : Nat}
    (hn : n < s.size) : ∃ w, (s.toDFA alphabet finals).run w = some (stateName n) := by
  induction n using Nat.strongRecOn with
  | ind n ih =>
    rcases Nat.eq_zero_or_pos n with rfl | hpos
    · exact ⟨[], rfl⟩
    · obtain ⟨p, hp, a, hmem⟩ := h.entered n hn hpos
      obtain ⟨w, hw⟩ := ih p hp (hp.trans hn)
      refine ⟨w ++ [a], ?_⟩
      rw [DFA.run_concat, hw, Option.bind_some, h.successor?_toDFA hmem]

/-- The states of the automaton are those that words lead to. -/
theorem mem_states_toDFA_iff_exists_run (h : s.Tended room alphabet.toList s.size [])
    (hfinals : ∀ q ∈ finals, q ∈ stateNames s.size) {q : State} :
    q ∈ (s.toDFA alphabet finals).states ↔ ∃ w, (s.toDFA alphabet finals).run w = some q := by
  constructor
  · intro hq
    obtain ⟨n, hn, rfl⟩ := mem_states_toDFA.mp hq
    exact h.exists_run_toDFA hn
  · intro hq
    obtain ⟨w, hw⟩ := hq
    have hsound := h.sound_toDFA hfinals
    exact hsound.mem_of_trace hsound.initial_mem (DFA.trace_iff.mpr hw)

/-- The automaton has the states of the sprout, and so not too many of them. -/
theorem size_toDFA_le (h : s.Tended room alphabet.toList s.size []) :
    (s.toDFA alphabet finals).size ≤ room := by
  have hnodup : (stateNames s.size).Nodup := List.nodup_range.map stateName_injective
  calc (s.toDFA alphabet finals).size = (stateNames s.size).length := FiniteSet.size_ofList hnodup
    _ = s.size := by rw [stateNames, List.length_map, List.length_range]
    _ ≤ room := h.size_le

end Tended

end Sprout

/-- A random deterministic automaton is sound. -/
theorem sound_dfaOver (hdraws : draws.Lawful) (alphabet : Alphabet) (p : Float) (maxSize : Nat) :
    Always (dfaOver draws alphabet p maxSize) Automaton.Sound :=
  .bind (Sprout.always_growAll hdraws p (by omega) (FiniteSet.nodup_toList alphabet))
    fun _ hsprout => .bind (always_someOf _) fun _ hfinals => .pure (hsprout.sound_toDFA hfinals)

/-- If numbers that are drawn below a number are below it, then the loop that expands the states of
a random deterministic automaton over up to 26 letters ends, and in one way only. Whatever is drawn,
its outcome is an automaton in which every state has a transition on every letter, words lead to all
states and to nothing else, and there are no more states than allowed. -/
theorem random_dfa_complete_and_trim (hdraws : draws.Lawful) {symbols : Nat}
    (hsymbols : symbols ≤ 26) (p : Float) (maxSize : Nat) :
    ∃ alphabet generate, Alphabet.ofSize? symbols = some alphabet ∧
      dfa? draws symbols p maxSize = some generate ∧ ∀ g, let D := (generate g).1
        (∃ s g', (∀ t h, Sprout.Expands draws p (max maxSize 1) alphabet.toList 0 ⟨1, []⟩ g t h ↔
          t = s ∧ h = g') ∧ D = s.toDFA alphabet (someOf draws (stateNames s.size) g').1) ∧
        D.WellFormed ∧ D.alphabet = alphabet ∧ D.isComplete = true ∧
        (∀ q, q ∈ D.states ↔ ∃ w, D.run w = some q) ∧ D.reachableStates = D.states ∧
        D.size ≤ max 1 maxSize := by
  obtain ⟨alphabet, halphabet⟩ : ∃ alphabet, Alphabet.ofSize? symbols = some alphabet :=
    ⟨_, if_pos hsymbols⟩
  refine ⟨alphabet, dfaOver draws alphabet p maxSize, halphabet, by rw [dfa?, halphabet]; rfl,
    fun g => ?_⟩
  obtain ⟨s, g', hexpands, hD⟩ := Sprout.exists_expands hdraws alphabet p maxSize g
  rw [hD]
  intro D
  have htended := hexpands.tended hdraws (FiniteSet.nodup_toList alphabet)
    (Sprout.Tended.start (by omega) _)
  have hfinals : ∀ q ∈ (someOf draws (stateNames s.size) g').1, q ∈ stateNames s.size :=
    always_someOf _ g'
  have hrun (q : State) : q ∈ D.states ↔ ∃ w, D.run w = some q :=
    htended.mem_states_toDFA_iff_exists_run hfinals
  refine ⟨⟨s, g', fun _ _ => hexpands.iff, rfl⟩, (htended.sound_toDFA hfinals).toWellFormed, rfl,
    htended.isComplete_toDFA, hrun, ?_, ?_⟩
  · refine Std.ExtTreeSet.ext_mem fun q => ?_
    rw [Automaton.mem_reachableStates, hrun]
    exact exists_congr fun w => DFA.trace_iff
  · rw [Nat.max_comm]
    exact htended.size_toDFA_le

/-- Draws that go round: every fifth chance is taken, and a number comes after the one before. -/
def cyclicDraws : Draws Nat where
  coin g := (g % 2 == 0, g + 1)
  chance _ g := (g % 5 == 0, g + 1)
  below n g := (g % n, g + 1)

/-- With draws that go round, an automaton over two letters grows to the three states allowed, and
all of them are expanded. -/
theorem cyclic_dfa_complete_and_trim : cyclicDraws.Lawful ∧ 2 ≤ 26 ∧
    ∃ generate, dfa? cyclicDraws 2 0.4 3 = some generate ∧ let D := (generate 1).1
      D.states = .ofList ["q0", "q1", "q2"] ∧ D.isComplete = true ∧
        ∀ q ∈ D.states, ∃ w, D.run w = some q := by
  have hlawful : cyclicDraws.Lawful := fun n g hn => Nat.mod_lt g hn
  obtain ⟨alphabet, generate, halphabet, hgenerate, hD⟩ :=
    random_dfa_complete_and_trim hlawful (by decide : 2 ≤ 26) 0.4 3
  obtain ⟨-, -, -, hcomplete, hrun, -⟩ := hD 1
  refine ⟨hlawful, by decide, generate, hgenerate, ?_, hcomplete, fun q hq => (hrun q).mp hq⟩
  obtain rfl : dfaOver cyclicDraws (.ofText "ab") 0.4 3 = generate := by
    have hletters : Alphabet.ofSize? 2 = some (.ofText "ab") := by decide +kernel
    rw [dfa?, hletters] at hgenerate
    exact Option.some.inj hgenerate
  decide +kernel

/-! ## Random nondeterministic automata -/

/-- A random nondeterministic automaton is sound. -/
theorem sound_nfaOver (alphabet : Alphabet) (size : Nat) (density : Float) :
    Always (nfaOver draws alphabet size density) Automaton.Sound := by
  refine .bind (always_chosen density _) fun triples htriples =>
    .bind (always_someOf _) fun finals hfinals => .pure ⟨?_, EdgeTable.canonical_ofTriples _⟩
  refine NFA.wellFormed_ofTriples ?_ ?_ ?_
  · exact StateSet.mem_ofList.mpr (mem_stateNames.mpr ⟨0, by omega, rfl⟩)
  · exact fun q hq => StateSet.mem_ofList.mpr (hfinals q (StateSet.mem_ofList.mp hq))
  · intro p a q hmem
    have hchosen := htriples _ hmem
    simp only [List.mem_flatMap, List.mem_map, Prod.mk.injEq, Std.ExtTreeSet.mem_toList] at hchosen
    obtain ⟨p, hp, a, ha, q, hq, rfl, rfl, rfl⟩ := hchosen
    exact ⟨StateSet.mem_ofList.mpr hp, ha, StateSet.mem_ofList.mpr hq⟩

/-- A random automaton with empty moves is sound. -/
theorem sound_epsilonNFAOver (alphabet : Alphabet) (size : Nat) (density epsilonDensity : Float) :
    Always (epsilonNFAOver draws alphabet size density epsilonDensity) Automaton.Sound := by
  refine .bind (sound_nfaOver alphabet size density) fun N hN =>
    .bind (always_chosen epsilonDensity _) fun moves hmoves => .pure ?_
  have hE := NFA.sound_toEpsilonNFA hN
  refine ⟨EpsilonNFA.wellFormed_of_successors hE.initial_mem hE.finals_subset fun {p l q} hq => ?_,
    EdgeTable.Canonical.addAll hE.canonical _⟩
  rcases (EdgeTable.mem_successors_addAll _ _).mp hq with hnew | hold
  · simp only [List.mem_map, Prod.exists, Prod.mk.injEq] at hnew
    obtain ⟨p, q, hmem, rfl, rfl, rfl⟩ := hnew
    have hchosen := hmoves _ hmem
    simp only [List.mem_flatMap, List.mem_map, List.mem_filter, Prod.mk.injEq,
      Std.ExtTreeSet.mem_toList] at hchosen
    obtain ⟨p, hp, q, ⟨htarget, -⟩, rfl, rfl⟩ := hchosen
    exact ⟨hp, by simp, htarget⟩
  · exact EpsilonNFA.of_mem_successors hE.toWellFormed hold

end Random

end RegularLanguages
