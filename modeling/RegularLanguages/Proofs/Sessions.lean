import RegularLanguages.Proofs.RandomAutomata
import RegularLanguages.Proofs.SoundAnswers

/-!
# Sessions

A session makes automata one after another, from data, at random or from automata made before. Each
construction makes a sound automaton of sound ones, so all automata of a session are sound: what
their transitions mention is declared, and no part of their tables is empty. In a session,
automata of one kind are equal if their parts are.
-/

namespace RegularLanguages

/-- An automaton that a single construction makes, with automata that have been made to start
from. -/
inductive Constructs (made : AnyAutomaton → Prop) : AnyAutomaton → Prop
  -- Data that is checked, and expressions.
  | parts {kind : Kind} {states : List State} {alphabet : Alphabet} {transitions : List Edge}
      {initial : State} {finals : List State} {A : AnyAutomaton}
      (h : AnyAutomaton.ofKind kind
        (fun _ => Automaton.ofParts states alphabet transitions initial finals) = .ok A) :
      Constructs made A
  | builder {kind : Kind} {b : AutomatonBuilder} {initial : State} {A : AnyAutomaton}
      (h : AnyAutomaton.ofKind kind (fun _ => b.build initial) = .ok A) : Constructs made A
  | dictionary {kind : Kind} {d : Dictionary} {A : AnyAutomaton} (h : d.toKind kind = .ok A) :
      Constructs made A
  | text {kind : Kind} {text : String} {A : AnyAutomaton}
      (h : AnyAutomaton.ofKind kind (fun _ => Automaton.ofText text) = .ok A) : Constructs made A
  | textOfAnyKind {text : String} {A : AnyAutomaton} (h : AnyAutomaton.ofText text = .ok A) :
      Constructs made A
  | regex {x : Regex} {alphabet : Alphabet} {E : EpsilonNFA} (h : x.toAutomaton alphabet = .ok E) :
      Constructs made E
  | pattern {rules : Pattern.Rules} {pattern : String} {p : Pattern.Compiled}
      (h : Pattern.Compiled.ofText rules pattern = .ok p) : Constructs made p.automaton
  | compile {pattern : String} {alphabet : Alphabet} {E : EpsilonNFA}
      (h : Pattern.compile pattern alphabet = .ok E) : Constructs made E
  -- Random automata, from any source of draws below the numbers they should be below.
  | randomDFA {γ : Type} {draws : Draws γ} {symbols maxSize : Nat} {p : Float} {m : StateM γ DFA}
      (hdraws : draws.Lawful) (h : Random.dfa? draws symbols p maxSize = some m) (g : γ) :
      Constructs made (m g).1
  | randomNFA {γ : Type} {draws : Draws γ} {symbols size : Nat} {density : Float}
      {m : StateM γ NFA} (h : Random.nfa? draws symbols size density = some m) (g : γ) :
      Constructs made (m g).1
  | randomEpsilonNFA {γ : Type} {draws : Draws γ} {symbols size : Nat}
      {density epsilonDensity : Float} {m : StateM γ EpsilonNFA}
      (h : Random.epsilonNFA? draws symbols size density epsilonDensity = some m) (g : γ) :
      Constructs made (m g).1
  -- Conversions, with or without a meter that can make them fail.
  | toKind {A : AnyAutomaton} (hA : made A) (kind : Kind) : Constructs made (A.toKind kind)
  | asDeterministic {A : AnyAutomaton} (hA : made A) {D : DFA}
      (h : A.asDeterministic? = some D) : Constructs made D
  | determinizeDirect {E : EpsilonNFA} (hE : made E) : Constructs made E.determinize
  | minimize {D : DFA} (hD : made D) : Constructs made D.minimize
  | determinizeWith {ε σ : Type} {meter : Meter (ExceptT ε (StateM σ))} {s : σ} {N : NFA} {D : DFA}
      (hN : made N) (h : (N.determinizeWith meter s).1 = .ok D) : Constructs made D
  | determinizeDirectWith {ε σ : Type} {meter : Meter (ExceptT ε (StateM σ))} {s : σ}
      {E : EpsilonNFA} {D : DFA} (hE : made E) (h : (E.determinizeWith meter s).1 = .ok D) :
      Constructs made D
  | minimizeWith {ε σ : Type} {meter : Meter (ExceptT ε (StateM σ))} {s : σ} {D M : DFA}
      (hD : made D) (h : (D.minimizeWith meter s).1 = .ok M) : Constructs made M
  -- Changes of one automaton.
  | trimmed {A : AnyAutomaton} (hA : made A) : Constructs made A.trimmed
  | extendAlphabet {A : AnyAutomaton} (hA : made A) (alphabet : Alphabet) :
      Constructs made (A.extendAlphabet alphabet)
  | complete {D : DFA} (hD : made D) : Constructs made D.complete
  | complementDFA {D : DFA} (hD : made D) : Constructs made D.complement
  -- Products; the union, intersection and difference of deterministic automata are such.
  | product {L R : DFA} (hL : made L) (hR : made R) {acceptance : Acceptance} {P : DFA}
      (h : L.product R acceptance = .ok P) : Constructs made P
  | cartesianProduct {l r : AnyAutomaton} (hl : made l) (hr : made r) {acceptance : Acceptance}
      {N : NFA} (h : cartesianProduct l r acceptance = .ok N) : Constructs made N
  -- Operations on languages.
  | union {l r : AnyAutomaton} (hl : made l) (hr : made r) {E : EpsilonNFA}
      (h : union l r = .ok E) : Constructs made E
  | concatenation {l r : AnyAutomaton} (hl : made l) (hr : made r) :
      Constructs made (concatenation l r)
  | kleeneStar {A : AnyAutomaton} (hA : made A) : Constructs made (kleeneStar A)
  | power {A : AnyAutomaton} (hA : made A) {n : Int} {E : EpsilonNFA} (h : power A n = .ok E) :
      Constructs made E
  | intersection {l r : AnyAutomaton} (hl : made l) (hr : made r) {N : NFA}
      (h : intersection l r = .ok N) : Constructs made N
  | complement {A : AnyAutomaton} (hA : made A) {D : DFA} (h : complement A = .ok D) :
      Constructs made D
  | difference {l r : AnyAutomaton} (hl : made l) (hr : made r) {N : NFA}
      (h : difference l r = .ok N) : Constructs made N
  | symmetricDifference {l r : AnyAutomaton} (hl : made l) (hr : made r) {E : EpsilonNFA}
      (h : symmetricDifference l r = .ok E) : Constructs made E
  | homomorphism {A : AnyAutomaton} (hA : made A) {map : SymbolMap} {N : NFA}
      (h : homomorphism A map = .ok N) : Constructs made N
  | inverseHomomorphism {A : AnyAutomaton} (hA : made A) {map : SymbolMap} {N : NFA}
      (h : inverseHomomorphism A map = .ok N) : Constructs made N
  -- Answers of engines that were asked about automata of the session before.
  | answer {δ γ : Type} [DecidableEq δ] {digest : Subject → δ} {generator : Generator γ}
      {config : EngineConfig} {history : List Engine.Event} {clock : Clock} {r : Request}
      {result : r.Result}
      (hhistory : ∀ s, Engine.Asked history s → ∀ A, s.source? = some A → made A)
      (hsource : ∀ A, r.source? = some A → made A)
      (h : (((Engine.start digest generator config).after history).request clock r).1 =
        .ok result) :
      Constructs made (r.resultType.toAny result)

/-- A construction makes a sound automaton of sound ones. -/
theorem Constructs.sound {made : AnyAutomaton → Prop} {A : AnyAutomaton} (h : Constructs made A)
    (hmade : ∀ B, made B → B.Sound) : A.Sound := by
  cases h with
  | parts h => exact AnyAutomaton.sound_of_ofKind (fun _ _ _ _ _ => Automaton.sound_of_ofParts) h
  | builder h =>
    exact AnyAutomaton.sound_of_ofKind (fun _ _ _ _ _ => AutomatonBuilder.sound_of_build) h
  | dictionary h => exact Dictionary.sound_of_toKind h
  | text h => exact AnyAutomaton.sound_of_ofKind (fun _ _ _ _ _ => Automaton.sound_of_ofText) h
  | textOfAnyKind h => exact AnyAutomaton.sound_of_ofText h
  | regex h => exact Regex.sound_of_toAutomaton h
  | pattern h => exact Pattern.Compiled.sound_of_ofText h
  | compile h => exact Pattern.sound_of_compile h
  | randomDFA hdraws h g =>
    obtain ⟨alphabet, -, rfl⟩ := Option.map_eq_some_iff.mp h
    exact Random.sound_dfaOver hdraws alphabet _ _ g
  | randomNFA h g =>
    obtain ⟨alphabet, -, rfl⟩ := Option.map_eq_some_iff.mp h
    exact Random.sound_nfaOver alphabet _ _ g
  | randomEpsilonNFA h g =>
    obtain ⟨alphabet, -, rfl⟩ := Option.map_eq_some_iff.mp h
    exact Random.sound_epsilonNFAOver alphabet _ _ _ g
  | toKind hA kind => exact AnyAutomaton.sound_toKind (hmade _ hA) kind
  | asDeterministic hA h => exact AnyAutomaton.sound_of_asDeterministic? (hmade _ hA) h
  | determinizeDirect hE => exact EpsilonNFA.sound_determinize (hmade _ hE)
  | minimize hD => exact DFA.sound_minimize (hmade _ hD)
  | determinizeWith hN h =>
    obtain rfl := (Lockstep.meters_returning _).determinize _ _ _ h
    exact NFA.sound_determinize (hmade _ hN)
  | determinizeDirectWith hE h =>
    obtain rfl := (Lockstep.meters_returning _).determinizeDirect _ _ _ h
    exact EpsilonNFA.sound_determinize (hmade _ hE)
  | minimizeWith hD h =>
    obtain rfl := (Lockstep.meters_returning _).minimize _ _ _ h
    exact DFA.sound_minimize (hmade _ hD)
  | trimmed hA => exact AnyAutomaton.sound_trimmed (hmade _ hA)
  | extendAlphabet hA alphabet => exact AnyAutomaton.sound_extendAlphabet (hmade _ hA) alphabet
  | complete hD => exact DFA.sound_complete (hmade _ hD)
  | complementDFA hD => exact DFA.sound_complement (hmade _ hD)
  | product hL hR h => exact DFA.sound_of_product (hmade _ hL) (hmade _ hR) h
  | cartesianProduct hl hr h => exact sound_of_cartesianProduct (hmade _ hl) (hmade _ hr) h
  | union hl hr h => exact sound_of_union (hmade _ hl) (hmade _ hr) h
  | concatenation hl hr => exact sound_concatenation (hmade _ hl) (hmade _ hr)
  | kleeneStar hA => exact sound_kleeneStar (hmade _ hA)
  | power hA h => exact sound_of_power (hmade _ hA) h
  | intersection hl hr h => exact sound_of_cartesianProduct (hmade _ hl) (hmade _ hr) h
  | complement hA h => exact sound_of_complement (hmade _ hA) h
  | difference hl hr h => exact sound_of_difference (hmade _ hl) (hmade _ hr) h
  | symmetricDifference hl hr h => exact sound_of_symmetricDifference (hmade _ hl) (hmade _ hr) h
  | homomorphism hA h => exact sound_of_homomorphism (hmade _ hA) h
  | inverseHomomorphism hA h => exact sound_of_inverseHomomorphism (hmade _ hA) h
  | @answer _ _ _ digest generator config history clock r result hhistory hsource h =>
    have hcomputed :
        ((Engine.start digest generator config).after history).Computed (Engine.Asked history) :=
      (Engine.computed_start digest generator config).after fun _ => id
    have hremembers := hcomputed.remembersSound fun s hs B hB => hmade B (hhistory s hs B hB)
    exact hremembers.answer (fun B hB => hmade B (hsource B hB)) h

/-- The automata that can have been made one after another, the last one first. -/
inductive Session : List AnyAutomaton → Prop
  | start : Session []
  | construct {made : List AnyAutomaton} {A : AnyAutomaton} (hmade : Session made)
      (hA : Constructs (· ∈ made) A) : Session (A :: made)

namespace Session

variable {made others : List AnyAutomaton} {A : AnyAutomaton}

/-- All automata of a session are sound. -/
theorem sound (h : Session made) : ∀ A ∈ made, A.Sound := by
  induction h with
  | start => simp
  | construct _ hA ih =>
    intro B hB
    rcases List.mem_cons.mp hB with rfl | hB
    · exact hA.sound ih
    · exact ih B hB

/-- All automata of sessions have a state, declare all states and symbols that they mention, and
have no empty parts in their tables; and two of one kind are equal exactly if their states,
alphabets, transitions, initial and final states are the same. -/
theorem wellFormed_and_eq_iff (hmade : Session made) (hothers : Session others) (hA : A ∈ made) :
    0 < A.size ∧ A.initial ∈ A.states ∧ (∀ q ∈ A.finals, q ∈ A.states) ∧
      (∀ e ∈ A.edges, e.source ∈ A.states ∧ e.target ∈ A.states ∧
        ((∃ a ∈ A.alphabet, e.label = .symbol a) ∨
          (e.label = .epsilon ∧ A.kind = .epsilonNFA))) ∧
      A.NoEmptyPart ∧
      ∀ B ∈ others, A.kind = B.kind →
        (A = B ↔ A.states = B.states ∧ A.alphabet = B.alphabet ∧
          (∀ e, e ∈ A.edges ↔ e ∈ B.edges) ∧ A.initial = B.initial ∧ A.finals = B.finals) := by
  have hsound := hmade.sound A hA
  refine ⟨?_, hsound.initial_mem, hsound.finals_subset, fun e => hsound.of_mem_edges,
    hsound.noEmptyPart, fun B hB hkind => ⟨?_, ?_⟩⟩
  · rw [AnyAutomaton.size, ← FiniteSet.card_toFinset]
    exact Finset.card_pos.mpr ⟨A.initial, FiniteSet.mem_toFinset.mpr hsound.initial_mem⟩
  · rintro rfl
    simp
  · intro h
    obtain ⟨hstates, halphabet, hedges, hinitial, hfinals⟩ := h
    exact hsound.eq_of_parts_eq (hothers.sound B hB) hkind hstates halphabet hedges hinitial hfinals

/-- The automaton of a single word, made after a random one, is also what is left of an automaton
with a state that cannot be reached. -/
theorem trimmed_eq_single_word :
    let S : DFA := (Random.dfaOver Wyrand.draws (.ofText "ab") 0.5 3 ⟨7⟩).1
    let D : DFA :=
      ⟨.ofList ["p", "q"], .ofText "ab", .ofTriples [("p", 'a', "q")], "p", .ofList ["q"]⟩
    let R : DFA := ⟨.ofList ["p", "q", "r"], .ofText "ab",
      .ofTriples [("p", 'a', "q"), ("r", 'b', "p")], "p", .ofList ["q"]⟩
    Session [.dfa D, .dfa S] ∧ Session [.dfa R.trimmed, .dfa R] ∧ AnyAutomaton.NoEmptyPart D ∧
      AnyAutomaton.dfa D = .dfa R.trimmed := by
  intro S D R
  have hrandom : Random.dfa? Wyrand.draws 2 0.5 3 =
      some (Random.dfaOver Wyrand.draws (.ofText "ab") 0.5 3) := by
    have halphabet : Alphabet.ofSize? 2 = some (.ofText "ab") := by decide +kernel
    rw [Random.dfa?, halphabet, Option.map_some]
  have hpartsD : AnyAutomaton.ofKind .dfa (fun _ => Automaton.ofParts ["p", "q"] (.ofText "ab")
      [⟨"p", .symbol 'a', "q"⟩] "p" ["q"]) = .ok (.dfa D) := by decide +kernel
  have hpartsR : AnyAutomaton.ofKind .dfa (fun _ => Automaton.ofParts ["p", "q", "r"] (.ofText "ab")
      [⟨"p", .symbol 'a', "q"⟩, ⟨"r", .symbol 'b', "p"⟩] "p" ["q"]) = .ok (.dfa R) := by
    decide +kernel
  have hD : Session [.dfa D, .dfa S] :=
    .construct (.construct .start (.randomDFA Wyrand.lawful_draws hrandom ⟨7⟩)) (.parts hpartsD)
  have hR : Session [.dfa R.trimmed, .dfa R] :=
    .construct (.construct .start (.parts hpartsR)) (.trimmed List.mem_cons_self)
  obtain ⟨-, -, -, -, hparts, heq⟩ := hD.wellFormed_and_eq_iff hR List.mem_cons_self
  refine ⟨hD, hR, hparts, (heq (.dfa R.trimmed) List.mem_cons_self (by decide +kernel)).mpr ?_⟩
  have hedges : AnyAutomaton.edges (.dfa D) = AnyAutomaton.edges (.dfa R.trimmed) := by
    decide +kernel
  exact ⟨by decide +kernel, by decide +kernel, fun e => by rw [hedges], by decide +kernel,
    by decide +kernel⟩

end Session

end RegularLanguages
