import Mathlib.Data.Set.Function
import RegularLanguages.Proofs.Completion
import RegularLanguages.Proofs.Quotient

/-!
# Minimal automata

In a reduced automaton every state is reached by a word and any two states are told apart by one.
Two automata with the same language meet in pairs of states that a common word leads to, and such
states accept the same words. So each state of a reduced automaton meets states of its own in every
complete automaton with its language, and two reduced automata with the same language are the same
up to the names of their states.
-/

namespace RegularLanguages.DFA

/-- A map that takes the states of one automaton to those of another, one to one, and respects the
initial state, the final states and every transition. -/
structure IsIsomorphism (A B : DFA) (f : State → State) : Prop where
  bijOn : Set.BijOn f {q | q ∈ A.states} {q | q ∈ B.states}
  initial_eq : f A.initial = B.initial
  mem_finals : ∀ q ∈ A.states, (f q ∈ B.finals ↔ q ∈ A.finals)
  successor : ∀ q ∈ A.states, ∀ a, B.successor? (f q) a = (A.successor? q a).map f

/-- A complete automaton in which all states are reached and told apart. -/
structure IsReduced (M : DFA) : Prop where
  wellFormed : M.WellFormed
  isComplete : M.isComplete = true
  reached : ∀ q ∈ M.states, ∃ w, M.run w = some q
  separated : ∀ p ∈ M.states, ∀ q ∈ M.states, p ≠ q → ∃ w, M.acceptsFrom p w ≠ M.acceptsFrom q w

/-- Two automata have the same alphabet and accept the same words. -/
structure SameLanguage (A B : DFA) : Prop where
  alphabet_eq : A.alphabet = B.alphabet
  accepts_eq : ∀ w, A.accepts w = B.accepts w

section Reduction

variable {D : DFA}

/-- A well-formed automaton without unreachable states accepts the same words. -/
theorem accepts_trimmed (hD : D.WellFormed) (w : Word) :
    DFA.accepts D.trimmed w = D.accepts w := by
  rw [Bool.eq_iff_iff, DFA.accepts_iff, DFA.accepts_iff, hD.recognizes_trimmed]

/-- Completeness survives that unreachable states are left out. -/
theorem isComplete_trimmed (hD : D.WellFormed) (hcomplete : D.isComplete = true) :
    DFA.isComplete D.trimmed = true := by
  rw [isComplete_iff] at hcomplete ⊢
  intro q hq a ha
  rw [Automaton.alphabet_trimmed] at ha
  rw [hD.states_trimmed] at hq
  obtain ⟨r, hr⟩ := Option.isSome_iff_exists.mp
    (hcomplete q (hD.mem_of_mem_reachableStates hq) a ha)
  rw [Option.isSome_iff_exists]
  exact ⟨r, moves_symbol.mp (hD.moves_trimmed.mpr ⟨moves_symbol.mpr hr, hq⟩)⟩

/-- The minimal automaton has the classes of the reachable states. -/
theorem minimize_eq :
    D.minimize = DFA.quotient D.trimmed (DFA.indistinguishable D.trimmed) := rfl

/-- A minimal automaton is made of the reachable states, each of which is merged into its class. -/
theorem merges_minimize (hD : D.WellFormed) :
    Merges D.trimmed D.minimize (className (DFA.indistinguishable D.trimmed)) :=
  merges_quotient hD.trimmed (classifies_indistinguishable hD.trimmed)

/-- Minimizing keeps an automaton well-formed. -/
theorem wellFormed_minimize (hD : D.WellFormed) : D.minimize.WellFormed :=
  wellFormed_quotient hD.trimmed (classifies_indistinguishable hD.trimmed)

/-- Words lead to all classes of reachable states. -/
theorem reached_minimize (hD : D.WellFormed) {r : State} (hr : r ∈ D.minimize.states) :
    ∃ w, D.minimize.run w = some r := by
  have hmerges := merges_minimize hD
  obtain ⟨q, hq, rfl⟩ := (hmerges.mem_states r).mp hr
  obtain ⟨w, htrace⟩ := hD.exists_trace_trimmed hq
  refine ⟨w, ?_⟩
  rw [run, hmerges.initial_eq, hmerges.runFrom hD.trimmed hD.trimmed.initial_mem,
    trace_iff.mp htrace]
  rfl

/-- Different states of a minimal automaton are told apart by what runs on some word show. -/
theorem eq_of_indistinguishable_minimize (hD : D.WellFormed) {r s : State}
    (hr : r ∈ D.minimize.states) (hs : s ∈ D.minimize.states)
    (h : D.minimize.Indistinguishable r s) : r = s := by
  have hR := hD.trimmed
  have hmerges := merges_minimize hD
  obtain ⟨p, hp, rfl⟩ := (hmerges.mem_states r).mp hr
  obtain ⟨q, hq, rfl⟩ := (hmerges.mem_states s).mp hs
  rw [(classifies_indistinguishable hR).className_eq_iff hp hq]
  intro w
  rw [← hmerges.outcome hR hp, ← hmerges.outcome hR hq, h w]

/-- Minimizing does not change what is accepted. -/
theorem accepts_minimize (hD : D.WellFormed) (w : Word) : D.minimize.accepts w = D.accepts w := by
  rw [(merges_minimize hD).accepts_eq hD.trimmed, accepts_trimmed hD]

/-- In a complete automaton, states from which the same words are accepted are
indistinguishable. -/
theorem indistinguishable_of_acceptsFrom_eq (hD : D.WellFormed) (hcomplete : D.isComplete = true)
    {p q : State} (hp : p ∈ D.states) (hq : q ∈ D.states)
    (h : ∀ w, D.acceptsFrom p w = D.acceptsFrom q w) : D.Indistinguishable p q := by
  intro w
  have hsame : (D.runFrom p w).isSome = (D.runFrom q w).isSome := by
    rw [Bool.eq_iff_iff, isSome_runFrom_iff hD hcomplete hp, isSome_runFrom_iff hD hcomplete hq]
  have hw := h w
  rw [acceptsFrom, acceptsFrom] at hw
  rw [outcome, outcome]
  cases hr : D.runFrom p w with
  | none =>
    rw [hr, Option.isSome_none, eq_comm, Option.isSome_eq_false_iff, Option.isNone_iff_eq_none]
      at hsame
    rw [hsame]
  | some r =>
    rw [hr, Option.isSome_some, eq_comm, Option.isSome_iff_exists] at hsame
    obtain ⟨s, hs⟩ := hsame
    rw [hr, hs, Option.any_some, Option.any_some] at hw
    rw [hs, Option.map_some, Option.map_some, hw]

/-- Minimizing a complete automaton reduces it. -/
theorem isReduced_minimize (hD : D.WellFormed) (hcomplete : D.isComplete = true) :
    D.minimize.IsReduced := by
  have hmerges := merges_minimize hD
  have hM := wellFormed_minimize hD
  have hMcomplete : D.minimize.isComplete = true := by
    have hRcomplete := isComplete_iff.mp (isComplete_trimmed hD hcomplete)
    rw [isComplete_iff, hmerges.alphabet_eq]
    intro r hr a ha
    obtain ⟨q, hq, rfl⟩ := (hmerges.mem_states r).mp hr
    rw [hmerges.successor q hq, Option.isSome_map]
    exact hRcomplete q hq a ha
  refine ⟨hM, hMcomplete, fun r hr => reached_minimize hD hr, ?_⟩
  intro r hr s hs hne
  by_contra hall
  push Not at hall
  exact hne (eq_of_indistinguishable_minimize hD hr hs
    (indistinguishable_of_acceptsFrom_eq hM hMcomplete hr hs hall))

end Reduction

/-- A common word leads to the states. -/
def Meet (A B : DFA) (p q : State) : Prop := ∃ w, A.run w = some p ∧ B.run w = some q

section Meeting

variable {A B : DFA} {p q r : State}

/-- Having the same language is symmetric. -/
theorem SameLanguage.symm (h : SameLanguage A B) : SameLanguage B A :=
  ⟨h.alphabet_eq.symm, fun w => (h.accepts_eq w).symm⟩

/-- Having the same language is transitive. -/
theorem SameLanguage.trans {C : DFA} (h : SameLanguage A B) (h' : SameLanguage B C) :
    SameLanguage A C :=
  ⟨h.alphabet_eq.trans h'.alphabet_eq, fun w => (h.accepts_eq w).trans (h'.accepts_eq w)⟩

/-- States meet in either order of the automata. -/
theorem Meet.symm (h : Meet A B p q) : Meet B A q p := by
  obtain ⟨w, hp, hq⟩ := h
  exact ⟨w, hq, hp⟩

/-- From states that meet, the same words are accepted. -/
theorem Meet.acceptsFrom_eq (h : Meet A B p q) (hsame : SameLanguage A B) (w : Word) :
    A.acceptsFrom p w = B.acceptsFrom q w := by
  obtain ⟨v, hp, hq⟩ := h
  rw [← accepts_append hp, ← accepts_append hq, hsame.accepts_eq]

/-- Every state of a reduced automaton meets a state of a complete automaton. -/
theorem exists_meet (hA : A.IsReduced) (hB : B.WellFormed) (hcomplete : B.isComplete = true)
    (hsame : SameLanguage A B) (hp : p ∈ A.states) : ∃ q, q ∈ B.states ∧ Meet A B p q := by
  obtain ⟨w, hw⟩ := hA.reached p hp
  have hsymbols : ∀ a ∈ w, a ∈ B.alphabet := by
    rw [← hsame.alphabet_eq, ← isSome_runFrom_iff hA.wellFormed hA.isComplete
      hA.wellFormed.initial_mem]
    exact Option.isSome_of_eq_some hw
  obtain ⟨q, hq⟩ := Option.isSome_iff_exists.mp
    ((isSome_runFrom_iff hB hcomplete hB.initial_mem).mpr hsymbols)
  exact ⟨q, runFrom_mem hB hB.initial_mem hq, w, hw, hq⟩

/-- States of a reduced automaton that meet the same state are the same. -/
theorem Meet.left_unique (hA : A.IsReduced) (hsame : SameLanguage A B) (hp : Meet A B p r)
    (hq : Meet A B q r) : p = q := by
  have hmem {s : State} (hs : Meet A B s r) : s ∈ A.states := by
    obtain ⟨w, hw, -⟩ := hs
    exact runFrom_mem hA.wellFormed hA.wellFormed.initial_mem hw
  by_contra hne
  obtain ⟨w, hw⟩ := hA.separated p (hmem hp) q (hmem hq) hne
  exact hw ((hp.acceptsFrom_eq hsame w).trans (hq.acceptsFrom_eq hsame w).symm)

/-- Where states meet, so do their successors. -/
theorem Meet.successor (h : Meet A B p q) {a : Symbol} {p' q' : State}
    (hp : A.successor? p a = some p') (hq : B.successor? q a = some q') : Meet A B p' q' := by
  obtain ⟨w, hw, hw'⟩ := h
  refine ⟨w ++ [a], ?_, ?_⟩
  · rw [run_concat, hw, Option.bind_some, hp]
  · rw [run_concat, hw', Option.bind_some, hq]

/-- No complete automaton with its language is smaller than a reduced one. -/
theorem IsReduced.size_le (hA : A.IsReduced) (hB : B.WellFormed) (hcomplete : B.isComplete = true)
    (hsame : SameLanguage A B) : A.states.size ≤ B.states.size := by
  have hmeet : ∀ p ∈ A.states, ∃ q, q ∈ B.states ∧ Meet A B p q :=
    fun p hp => exists_meet hA hB hcomplete hsame hp
  choose! f hf using hmeet
  apply FiniteSet.size_le_of_injOn f
  · exact fun p hp => (hf p hp).1
  · intro p hp q hq heq
    exact Meet.left_unique hA hsame (hf p hp).2 (heq ▸ (hf q hq).2)

/-- Reduced automata with the same language are isomorphic. -/
theorem IsReduced.exists_isomorphism (hA : A.IsReduced) (hB : B.IsReduced)
    (hsame : SameLanguage A B) : ∃ f, IsIsomorphism A B f := by
  have hmeet : ∀ p ∈ A.states, ∃ q, q ∈ B.states ∧ Meet A B p q :=
    fun p hp => exists_meet hA hB.wellFormed hB.isComplete hsame hp
  have hunique {p q q' : State} (hq : Meet A B p q) (hq' : Meet A B p q') : q = q' :=
    Meet.left_unique hB hsame.symm hq.symm hq'.symm
  choose! f hf using hmeet
  refine ⟨f, ⟨fun p hp => (hf p hp).1, ?_, ?_⟩, ?_, ?_, ?_⟩
  · intro p hp q hq heq
    exact Meet.left_unique hA hsame (hf p hp).2 (heq ▸ (hf q hq).2)
  · intro q hq
    obtain ⟨p, hp, hpq⟩ := exists_meet hB hA.wellFormed hA.isComplete hsame.symm hq
    exact ⟨p, hp, hunique (hf p hp).2 hpq.symm⟩
  · exact hunique (hf _ hA.wellFormed.initial_mem).2 ⟨[], rfl, rfl⟩
  · intro p hp
    have hempty := (hf p hp).2.acceptsFrom_eq hsame []
    rw [acceptsFrom_nil, acceptsFrom_nil] at hempty
    rw [← Automaton.isFinal_iff, ← Automaton.isFinal_iff, hempty]
  · intro p hp a
    have hA' := isComplete_iff.mp hA.isComplete p hp a
    have hB' := isComplete_iff.mp hB.isComplete (f p) (hf p hp).1 a
    cases hr : A.successor? p a with
    | none =>
      rw [Option.map_none, ← Option.not_isSome_iff_eq_none]
      intro hsome
      obtain ⟨s, hs⟩ := Option.isSome_iff_exists.mp hsome
      have ha := symbol_mem hB.wellFormed hs
      have hmissing := hA' (hsame.alphabet_eq ▸ ha)
      rw [hr] at hmissing
      contradiction
    | some r =>
      have ha := symbol_mem hA.wellFormed hr
      obtain ⟨s, hs⟩ := Option.isSome_iff_exists.mp (hB' (hsame.alphabet_eq ▸ ha))
      have hr' := (hf r (successor_mem hA.wellFormed hr)).2
      rw [hs, Option.map_some, hunique hr' ((hf p hp).2.successor hr hs)]

end Meeting

/-- Completing and then minimizing keeps the alphabet and the language. -/
theorem sameLanguage_minimize_complete {D : DFA} (hD : D.WellFormed) :
    SameLanguage D D.complete.minimize where
  alphabet_eq := by
    rw [(merges_minimize (wellFormed_complete hD)).alphabet_eq, Automaton.alphabet_trimmed,
      alphabet_complete]
  accepts_eq w := by rw [accepts_minimize (wellFormed_complete hD), accepts_complete hD]

/-- Completing and then minimizing a well-formed automaton gives a complete automaton with the same
alphabet and language, all states of which are reached and told apart by words. No complete
automaton with this alphabet and language has fewer states, and all automata with this alphabet and
language give the same one up to an isomorphism. -/
theorem minimize_complete_least_and_unique (D : DFA) (hD : D.WellFormed) :
    D.complete.minimize.isComplete = true ∧
    SameLanguage D D.complete.minimize ∧
    (∀ q ∈ D.complete.minimize.states, ∃ w, D.complete.minimize.run w = some q) ∧
    (∀ p ∈ D.complete.minimize.states, ∀ q ∈ D.complete.minimize.states, p ≠ q →
      ∃ w, D.complete.minimize.acceptsFrom p w ≠ D.complete.minimize.acceptsFrom q w) ∧
    (∀ C : DFA, C.WellFormed → C.isComplete = true → SameLanguage D C →
      D.complete.minimize.states.size ≤ C.states.size) ∧
    ∀ D' : DFA, D'.WellFormed → SameLanguage D D' →
      ∃ f, IsIsomorphism D.complete.minimize D'.complete.minimize f := by
  have hreduced {A : DFA} (hA : A.WellFormed) : A.complete.minimize.IsReduced :=
    isReduced_minimize (wellFormed_complete hA) A.isComplete_complete
  have hsame := sameLanguage_minimize_complete hD
  refine ⟨(hreduced hD).isComplete, hsame, (hreduced hD).reached, (hreduced hD).separated, ?_, ?_⟩
  · intro C hC hcomplete hDC
    exact (hreduced hD).size_le hC hcomplete (hsame.symm.trans hDC)
  · intro D' hD' hDD'
    have hsame' := sameLanguage_minimize_complete hD'
    exact (hreduced hD).exists_isomorphism (hreduced hD') ((hsame.symm.trans hDD').trans hsame')

/-- The automaton of a single word, which is not complete, is well-formed and so has a least
complete automaton. -/
theorem minimize_complete_single_word :
    let D : DFA :=
      ⟨.ofList ["p", "q"], .ofText "ab", .ofTriples [("p", 'a', "q")], "p", .ofList ["q"]⟩
    D.WellFormed ∧ D.complete.minimize.isComplete = true ∧
      ∀ C : DFA, C.WellFormed → C.isComplete = true → SameLanguage D C →
        D.complete.minimize.states.size ≤ C.states.size := by
  intro D
  have hD : D.WellFormed := by
    apply wellFormed_ofTriples <;> simp_all [Alphabet.ofText]
  obtain ⟨hcomplete, -, -, -, hleast, -⟩ := minimize_complete_least_and_unique D hD
  exact ⟨hD, hcomplete, hleast⟩

end RegularLanguages.DFA
