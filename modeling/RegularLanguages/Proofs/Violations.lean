import RegularLanguages.Proofs.Checks
import RegularLanguages.Proofs.SoundSources

/-!
# What parts are refused for

The checks stop at the first fault and fill the table as they go, so a transition is compared with
those in front of it only. Whatever they report is there all the same: a table that is partly filled
has no transitions but given ones. So parts are refused exactly if something is wrong with them, and
the order in which they are listed decides no more than which fault is reported.
-/

namespace RegularLanguages

/-- What is wrong with the parts that an automaton of some kind is to be made of. -/
inductive Violates (kind : Kind) (states : List State) (alphabet : Alphabet) (es : List Edge)
    (initial : State) (finals : List State) : InvalidReason → Prop
  | noStates (h : ∀ q, q ∉ states) : Violates kind states alphabet es initial finals .noStates
  | epsilonInAlphabet (h : epsilonSymbol ∈ alphabet) :
      Violates kind states alphabet es initial finals .epsilonInAlphabet
  | unknownInitialState (h : initial ∉ states) :
      Violates kind states alphabet es initial finals (.unknownInitialState initial)
  | unknownFinalState {q : State} (hq : q ∈ finals) (h : q ∉ states) :
      Violates kind states alphabet es initial finals (.unknownFinalState q)
  | unknownTransitionState {e : Edge} {q : State} (he : e ∈ es) (hq : q = e.source ∨ q = e.target)
      (h : q ∉ states) :
      Violates kind states alphabet es initial finals (.unknownTransitionState q)
  | unknownSymbol {e : Edge} {a : Symbol} (he : e ∈ es) (ha : e.label = .symbol a)
      (h : a ∉ alphabet) : Violates kind states alphabet es initial finals (.unknownSymbol a)
  | unexpectedEpsilon {e : Edge} (he : e ∈ es) (hempty : e.label = .epsilon)
      (h : kind ≠ .epsilonNFA) :
      Violates kind states alphabet es initial finals (.unexpectedEpsilon e.source)
  | nondeterministic {p q r : State} {a : Symbol} (hq : ⟨p, .symbol a, q⟩ ∈ es)
      (hr : ⟨p, .symbol a, r⟩ ∈ es) (hne : q ≠ r) (h : kind = .dfa) :
      Violates kind states alphabet es initial finals (.nondeterministic p a)

/-- An automaton of some kind can have the given parts. -/
structure Admissible (kind : Kind) (states : List State) (alphabet : Alphabet) (es : List Edge)
    (initial : State) (finals : List State) : Prop where
  exists_state : ∃ q, q ∈ states
  epsilonSymbol_notMem : epsilonSymbol ∉ alphabet
  initial_mem : initial ∈ states
  finals_subset : ∀ q ∈ finals, q ∈ states
  ends_mem : ∀ e ∈ es, e.source ∈ states ∧ e.target ∈ states
  symbol_mem : ∀ e ∈ es, ∀ a, e.label = .symbol a → a ∈ alphabet
  label_ne_epsilon : kind ≠ .epsilonNFA → ∀ e ∈ es, e.label ≠ .epsilon
  target_unique : kind = .dfa → ∀ p a q r, ⟨p, .symbol a, q⟩ ∈ es → ⟨p, .symbol a, r⟩ ∈ es → q = r

section Parts

variable {kind : Kind} {states : List State} {alphabet : Alphabet} {es : List Edge}
  {initial : State} {finals : List State} {reason : InvalidReason}

/-- No automaton can have parts with which something is wrong. -/
theorem Violates.not_admissible (h : Violates kind states alphabet es initial finals reason) :
    ¬Admissible kind states alphabet es initial finals := by
  intro hparts
  cases h with
  | noStates h =>
    obtain ⟨q, hq⟩ := hparts.exists_state
    exact h q hq
  | epsilonInAlphabet h => exact hparts.epsilonSymbol_notMem h
  | unknownInitialState h => exact h hparts.initial_mem
  | unknownFinalState hq h => exact h (hparts.finals_subset _ hq)
  | unknownTransitionState he hq h =>
    rcases hq with rfl | rfl
    · exact h (hparts.ends_mem _ he).1
    · exact h (hparts.ends_mem _ he).2
  | unknownSymbol he ha h => exact h (hparts.symbol_mem _ he _ ha)
  | unexpectedEpsilon he hempty h => exact hparts.label_ne_epsilon h _ he hempty
  | nondeterministic hq hr hne h => exact hne (hparts.target_unique h _ _ _ _ hq hr)

/-- If states and alphabet are those that are mentioned, then nothing unknown is. -/
theorem Violates.reason_of_mentioned (h : Violates kind states alphabet es initial finals reason)
    (hinitial : initial ∈ states) (hfinals : ∀ q ∈ finals, q ∈ states)
    (hends : ∀ e ∈ es, e.source ∈ states ∧ e.target ∈ states)
    (hsymbols : ∀ e ∈ es, ∀ a, e.label = .symbol a → a ∈ alphabet) :
    reason = .epsilonInAlphabet ∨ (∃ q, reason = .unexpectedEpsilon q) ∨
      ∃ q a, reason = .nondeterministic q a := by
  cases h with
  | noStates h => exact (h initial hinitial).elim
  | epsilonInAlphabet h => exact .inl rfl
  | unknownInitialState h => exact (h hinitial).elim
  | unknownFinalState hq h => exact (h (hfinals _ hq)).elim
  | unknownTransitionState he hq h =>
    rcases hq with rfl | rfl
    · exact (h (hends _ he).1).elim
    · exact (h (hends _ he).2).elim
  | unknownSymbol he ha h => exact (h (hsymbols _ he _ ha)).elim
  | unexpectedEpsilon => exact .inr (.inl ⟨_, rfl⟩)
  | nondeterministic => exact .inr (.inr ⟨_, _, rfl⟩)

end Parts

/-- A kind of table that refuses a transition for its own fault or for one of those that are there,
and has empty moves only if it is the kind for them. -/
class ReportingTransitionTable (T : Type) [TransitionTable T] : Prop where
  of_insert_eq_error : ∀ {t : T} {e : Edge} {reason : InvalidReason},
    TransitionTable.insert t e = .error reason →
      (reason = .unexpectedEpsilon e.source ∧ e.label = .epsilon ∧
        TransitionTable.kind T ≠ .epsilonNFA) ∨
      ∃ a q, reason = .nondeterministic e.source a ∧ e.label = .symbol a ∧ q ≠ e.target ∧
        ⟨e.source, .symbol a, q⟩ ∈ TransitionTable.edges t ∧ TransitionTable.kind T = .dfa
  label_ne_epsilon : TransitionTable.kind T ≠ .epsilonNFA → ∀ {t : T} {e : Edge},
    e ∈ TransitionTable.edges t → e.label ≠ .epsilon

instance : ReportingTransitionTable DeterministicTable where
  of_insert_eq_error {t e reason} h := by
    simp only [TransitionTable.insert, DeterministicTable.insert] at h
    split at h
    · rename_i hempty
      obtain rfl := Except.error.inj h
      exact .inl ⟨rfl, hempty, by rintro ⟨⟩⟩
    · rename_i a ha
      split at h
      · rename_i q hq
        split at h
        · contradiction
        · rename_i hne
          obtain rfl := Except.error.inj h
          exact .inr ⟨a, q, rfl, ha, hne, DeterministicTable.mem_edges.mpr ⟨a, rfl, hq⟩, rfl⟩
      · contradiction
  label_ne_epsilon _ {t e} he hempty := by
    obtain ⟨a, ha, -⟩ := DeterministicTable.mem_edges.mp he
    rw [hempty] at ha
    contradiction

instance : ReportingTransitionTable NondeterministicTable where
  of_insert_eq_error {t e reason} h := by
    simp only [TransitionTable.insert] at h
    split at h
    · rename_i hempty
      obtain rfl := Except.error.inj h
      exact .inl ⟨rfl, hempty, by rintro ⟨⟩⟩
    · contradiction
  label_ne_epsilon _ {t e} he hempty := by
    obtain ⟨a, ha, -⟩ := NondeterministicTable.mem_edges.mp he
    rw [hempty] at ha
    contradiction

instance : ReportingTransitionTable EpsilonTable where
  of_insert_eq_error h := by contradiction
  label_ne_epsilon h := by contradiction

namespace Automaton

variable {T : Type} [TransitionTable T] {states : List State} {alphabet : Alphabet}
  {es given : List Edge} {initial : State} {finals : List State} {reason : InvalidReason}

/-- An undeclared state that is found is mentioned and is not a state. -/
theorem of_undeclared?_eq_some {declared : StateSet} {mentioned : List State} {q : State}
    (h : undeclared? declared mentioned = some q) : q ∈ mentioned ∧ q ∉ declared :=
  ⟨List.mem_of_find?_eq_some h, by simpa using List.find?_some h⟩

/-- A fault of a given transition is wrong with the parts. -/
theorem violates_of_edgeFault? {kind : Kind} {e : Edge} (he : e ∈ given)
    (h : edgeFault? (.ofList states) alphabet e = some reason) :
    Violates kind states alphabet given initial finals reason := by
  unfold edgeFault? at h
  split at h
  · rename_i q hundeclared
    obtain rfl := Option.some.inj h
    obtain ⟨hq, hunknown⟩ := of_undeclared?_eq_some hundeclared
    exact .unknownTransitionState he (by simpa using hq) (by simpa using hunknown)
  · split at h
    · contradiction
    · rename_i a ha
      split at h
      · contradiction
      · rename_i hforeign
        obtain rfl := Option.some.inj h
        exact .unknownSymbol he ha (by simpa using hforeign)

/-- What stops the transitions from being added one by one is wrong with the parts, if those that
are there already have been given as well. -/
theorem violates_of_insertAll [LawfulTransitionTable T] [ReportingTransitionTable T] {t : T}
    (hes : ∀ e ∈ es, e ∈ given) (ht : ∀ e ∈ TransitionTable.edges t, e ∈ given)
    (h : insertAll (.ofList states) alphabet t es = .error reason) :
    Violates (TransitionTable.kind T) states alphabet given initial finals reason := by
  induction es generalizing t with
  | nil => contradiction
  | cons e es ih =>
    have he : e ∈ given := hes e List.mem_cons_self
    rw [insertAll] at h
    split at h
    · rename_i hfault
      obtain rfl := Except.error.inj h
      exact violates_of_edgeFault? he hfault
    · split at h
      · rename_i hrefused
        obtain rfl := Except.error.inj h
        rcases ReportingTransitionTable.of_insert_eq_error hrefused with
          ⟨rfl, hempty, hkind⟩ | ⟨a, q, rfl, ha, hne, hq, hkind⟩
        · exact .unexpectedEpsilon he hempty hkind
        · exact .nondeterministic (ht _ hq) (ha ▸ he) hne hkind
      · rename_i t' hinsert
        refine ih (fun e' he' => hes e' (List.mem_cons_of_mem e he')) (fun e' he' => ?_) h
        rcases (LawfulTransitionTable.mem_edges_insert hinsert e').mp he' with rfl | he'
        · exact he
        · exact ht e' he'

/-- What the checks report is wrong with the parts. -/
theorem violates_of_checked [LawfulTransitionTable T] [ReportingTransitionTable T]
    (h : checked (T := T) (.ofList states) alphabet given initial finals = .error reason) :
    Violates (TransitionTable.kind T) states alphabet given initial finals reason := by
  unfold checked at h
  split_ifs at h with hempty hepsilon hinitial
  · obtain rfl := Except.error.inj h
    refine .noStates fun q hq => ?_
    rw [StateSet.isEmpty_eq_false_of_mem (StateSet.mem_ofList.mpr hq)] at hempty
    contradiction
  · obtain rfl := Except.error.inj h
    exact .epsilonInAlphabet (by simpa using hepsilon)
  · obtain rfl := Except.error.inj h
    exact .unknownInitialState (by simpa using hinitial)
  · split at h
    · rename_i q hundeclared
      obtain rfl := Except.error.inj h
      obtain ⟨hq, hunknown⟩ := of_undeclared?_eq_some hundeclared
      exact .unknownFinalState hq (by simpa using hunknown)
    · split at h
      · rename_i hinsert
        obtain rfl := Except.error.inj h
        exact violates_of_insertAll (fun _ => id)
          (fun e he => (LawfulTransitionTable.notMem_edges_empty e he).elim) hinsert
      · contradiction

/-- What parts are refused for is wrong with them. -/
theorem violates_of_ofParts [LawfulTransitionTable T] [ReportingTransitionTable T]
    {error : InvalidAutomaton}
    (h : ofParts (T := T) states alphabet es initial finals = .error error) :
    error.kind = TransitionTable.kind T ∧
      Violates (TransitionTable.kind T) states alphabet es initial finals error.reason := by
  unfold ofParts at h
  split at h
  · rename_i hchecked
    obtain rfl := Except.error.inj h
    exact ⟨rfl, violates_of_checked hchecked⟩
  · contradiction

/-- What the checks let through has the given parts. -/
theorem parts_of_ofParts [LawfulTransitionTable T] [CanonicalTable T] {A : Automaton T}
    (h : ofParts states alphabet es initial finals = .ok A) :
    (∀ q, q ∈ A.states ↔ q ∈ states) ∧ A.alphabet = alphabet ∧ (∀ e, e ∈ A.edges ↔ e ∈ es) ∧
      A.initial = initial ∧ ∀ q, q ∈ A.finals ↔ q ∈ finals := by
  obtain ⟨-, -, -, -, table, hinsert, rfl⟩ := checked_eq_ok_iff.mp (ofParts_eq_ok_iff.mp h)
  obtain ⟨-, hedges, -⟩ := of_insertAll_eq_ok hinsert CanonicalTable.canonical_empty
  refine ⟨fun _ => StateSet.mem_ofList, rfl, fun e => ?_, rfl, fun _ => StateSet.mem_ofList⟩
  exact (hedges e).trans (or_iff_left (LawfulTransitionTable.notMem_edges_empty e))

variable [LawfulTransitionTable T] [CanonicalTable T] [ExactTransitionTable T]
  [ReportingTransitionTable T]

/-- What the checks let through has parts that an automaton can have. -/
theorem admissible_of_ofParts {A : Automaton T}
    (h : ofParts states alphabet es initial finals = .ok A) :
    Admissible (TransitionTable.kind T) states alphabet es initial finals := by
  have hA : A.Sound := sound_of_ofParts h
  have hepsilon := epsilonSymbol_notMem_of_ofParts h
  obtain ⟨hstates, rfl, hedges, rfl, hfinals⟩ := parts_of_ofParts h
  have hinitial := (hstates _).mp hA.initial_mem
  refine ⟨⟨A.initial, hinitial⟩, hepsilon, hinitial, fun q hq => ?_, fun e he => ?_,
    fun e he a ha => ?_, fun hkind e he => ?_, fun hkind p a q r hq hr => ?_⟩
  · exact (hstates q).mp (hA.finals_subset q ((hfinals q).mpr hq))
  · have hmove := (hedges e).mpr he
    exact ⟨(hstates _).mp (hA.source_mem _ _ _ hmove), (hstates _).mp (hA.target_mem _ _ _ hmove)⟩
  · exact hA.symbol_mem e.source a e.target (ha ▸ (hedges e).mpr he)
  · exact ReportingTransitionTable.label_ne_epsilon hkind ((hedges e).mpr he)
  · exact ExactTransitionTable.target_unique hkind ((hedges _).mpr hq) ((hedges _).mpr hr)

/-- Parts make an automaton exactly if an automaton can have them. -/
theorem exists_ofParts_iff :
    (∃ A : Automaton T, ofParts states alphabet es initial finals = .ok A) ↔
    Admissible (TransitionTable.kind T) states alphabet es initial finals := by
  constructor
  · rintro ⟨A, hA⟩
    exact admissible_of_ofParts hA
  · intro hparts
    cases h : ofParts (T := T) states alphabet es initial finals with
    | ok A => exact ⟨A, rfl⟩
    | error error =>
      obtain ⟨-, hviolates⟩ := violates_of_ofParts h
      exact (hviolates.not_admissible hparts).elim

omit [ReportingTransitionTable T] in
/-- The order of the parts and their repetitions do not matter for what is made of them. -/
theorem ofParts_eq_ok_of_mem_iff {states' finals' : List State} {es' : List Edge} {A : Automaton T}
    (hstates : ∀ q, q ∈ states' ↔ q ∈ states) (hes : ∀ e, e ∈ es' ↔ e ∈ es)
    (hfinals : ∀ q, q ∈ finals' ↔ q ∈ finals)
    (h : ofParts states alphabet es initial finals = .ok A) :
    ofParts states' alphabet es' initial finals' = .ok A := by
  have hA : A.Sound := sound_of_ofParts h
  have hepsilon := epsilonSymbol_notMem_of_ofParts h
  obtain ⟨hAstates, rfl, hedges, rfl, hAfinals⟩ := parts_of_ofParts h
  refine hA.ofParts_eq_ok hepsilon ?_ (fun e => (hes e).trans (hedges e).symm) ?_
  · exact Std.ExtTreeSet.ext_mem fun q => by simp [hAstates, hstates]
  · exact Std.ExtTreeSet.ext_mem fun q => by simp [hAfinals, hfinals]

end Automaton

namespace AnyAutomaton

/-- The automaton of the given kind with the given parts, checked. -/
def ofParts (kind : Kind) (states : List State) (alphabet : Alphabet) (es : List Edge)
    (initial : State) (finals : List State) : Except InvalidAutomaton AnyAutomaton :=
  ofKind kind fun _ _ => Automaton.ofParts states alphabet es initial finals

variable {kind : Kind} {states : List State} {alphabet : Alphabet} {es : List Edge}
  {initial : State} {finals : List State}

/-- An automaton of some kind has the given parts exactly if these are admissible. -/
theorem exists_ofParts_iff : (∃ A, ofParts kind states alphabet es initial finals = .ok A) ↔
    Admissible kind states alphabet es initial finals := by
  have hmade {T : Type} {f : Automaton T → AnyAutomaton}
      {outcome : Except InvalidAutomaton (Automaton T)} :
      (∃ A, outcome.map f = .ok A) ↔ ∃ B, outcome = .ok B := by
    cases outcome <;> simp [Except.map]
  cases kind <;> exact hmade.trans Automaton.exists_ofParts_iff

/-- An automaton that is made of given parts has these parts and this kind. -/
theorem parts_of_ofParts {A : AnyAutomaton}
    (h : ofParts kind states alphabet es initial finals = .ok A) :
    A.kind = kind ∧ (∀ q, q ∈ A.states ↔ q ∈ states) ∧ A.alphabet = alphabet ∧
      (∀ e, e ∈ A.edges ↔ e ∈ es) ∧ A.initial = initial ∧ ∀ q, q ∈ A.finals ↔ q ∈ finals := by
  cases kind <;>
  · obtain ⟨B, hB, rfl⟩ := exists_of_map_eq_ok h
    exact ⟨rfl, Automaton.parts_of_ofParts hB⟩

/-- Parts that mention the same states, transitions and final states, in whatever order, make the
same automaton. -/
theorem ofParts_eq_ok_of_mem_iff {states' finals' : List State} {es' : List Edge}
    (hstates : ∀ q, q ∈ states' ↔ q ∈ states) (hes : ∀ e, e ∈ es' ↔ e ∈ es)
    (hfinals : ∀ q, q ∈ finals' ↔ q ∈ finals) {A : AnyAutomaton}
    (h : ofParts kind states alphabet es initial finals = .ok A) :
    ofParts kind states' alphabet es' initial finals' = .ok A := by
  cases kind <;>
  · obtain ⟨B, hB, rfl⟩ := exists_of_map_eq_ok h
    simp only [ofParts, ofKind, Automaton.ofParts_eq_ok_of_mem_iff hstates hes hfinals hB]
    rfl

/-- An error for given parts names the kind asked for and something that is wrong with the parts. -/
theorem violates_of_ofParts {error : InvalidAutomaton}
    (h : ofParts kind states alphabet es initial finals = .error error) :
    error.kind = kind ∧ Violates kind states alphabet es initial finals error.reason := by
  cases kind <;> exact Automaton.violates_of_ofParts (map_eq_error_iff.mp h)

/-- If nothing is declared, states and symbols are known because they are mentioned. -/
theorem reason_of_build {b : AutomatonBuilder} (hstates : b.states = none)
    (halphabet : b.alphabet = none) {error : InvalidAutomaton}
    (h : ofKind kind (fun _ _ => b.build initial) = .error error) :
    error.reason = .epsilonInAlphabet ∨ (∃ q, error.reason = .unexpectedEpsilon q) ∨
      ∃ q a, error.reason = .nondeterministic q a := by
  have hparts : ofParts kind (b.allStates initial) b.fullAlphabet b.transitions initial b.finals =
      .error error := h
  have hmentioned (q : State) : q ∈ b.allStates initial ↔
      (∃ e ∈ b.transitions, q = e.source ∨ q = e.target) ∨ q ∈ b.finals ∨ q = initial := by
    simp [AutomatonBuilder.allStates, hstates]
  refine (violates_of_ofParts hparts).2.reason_of_mentioned ?_ (fun q hq => ?_) (fun e he => ?_)
    fun e he a ha => ?_
  · exact (hmentioned initial).mpr (.inr (.inr rfl))
  · exact (hmentioned q).mpr (.inr (.inl hq))
  · exact ⟨(hmentioned _).mpr (.inl ⟨e, he, .inl rfl⟩), (hmentioned _).mpr (.inl ⟨e, he, .inr rfl⟩)⟩
  · simp only [AutomatonBuilder.fullAlphabet, halphabet, Option.getD_none, Alphabet.mem_ofList,
      List.mem_filterMap]
    exact ⟨e, he, by rw [ha]; rfl⟩

/-- Lists of states, transitions and final states make an automaton exactly if one of the kind can
have these parts. It has them as sets, so other lists of the same parts make the same automaton. If
they are refused, then for something that is wrong with them; and if nothing was declared, then not
for what is unknown. -/
theorem ofParts_makes_what_is_admissible (kind : Kind) (states : List State) (alphabet : Alphabet)
    (es : List Edge) (initial : State) (finals : List State) :
    ((∃ A, ofParts kind states alphabet es initial finals = .ok A) ↔
      Admissible kind states alphabet es initial finals) ∧
    (∀ A, ofParts kind states alphabet es initial finals = .ok A →
      A.kind = kind ∧ (∀ q, q ∈ A.states ↔ q ∈ states) ∧ A.alphabet = alphabet ∧
      (∀ e, e ∈ A.edges ↔ e ∈ es) ∧ A.initial = initial ∧ ∀ q, q ∈ A.finals ↔ q ∈ finals) ∧
    (∀ (states' : List State) (es' : List Edge) (finals' : List State),
      (∀ q, q ∈ states' ↔ q ∈ states) → (∀ e, e ∈ es' ↔ e ∈ es) → (∀ q, q ∈ finals' ↔ q ∈ finals) →
      ∀ A, ofParts kind states' alphabet es' initial finals' = .ok A ↔
        ofParts kind states alphabet es initial finals = .ok A) ∧
    (∀ error, ofParts kind states alphabet es initial finals = .error error →
      error.kind = kind ∧ Violates kind states alphabet es initial finals error.reason) ∧
    ∀ b : AutomatonBuilder, b.states = none → b.alphabet = none →
      ∀ error, ofKind kind (fun _ _ => b.build initial) = .error error →
        ∀ q a, error.reason ≠ .unknownInitialState q ∧ error.reason ≠ .unknownFinalState q ∧
          error.reason ≠ .unknownTransitionState q ∧ error.reason ≠ .unknownSymbol a := by
  refine ⟨exists_ofParts_iff, fun _ => parts_of_ofParts, ?_, fun _ => violates_of_ofParts, ?_⟩
  · intro states' es' finals' hstates hes hfinals A
    constructor
    · exact ofParts_eq_ok_of_mem_iff (fun q => (hstates q).symm) (fun e => (hes e).symm)
        fun q => (hfinals q).symm
    · exact ofParts_eq_ok_of_mem_iff hstates hes hfinals
  · intro b hdeclared hsymbols error h q a
    rcases reason_of_build hdeclared hsymbols h with hreason | ⟨_, hreason⟩ | ⟨_, _, hreason⟩ <;>
      simp [hreason]

/-- An automaton is made of parts that are listed in any order and more than once. With a final
state that is not declared, the parts are refused for it. If nothing is declared, then all states
are known, and the parts are refused for a symbol that leads to two states. -/
theorem ofParts_of_two_states :
    let es : List Edge := [⟨"p", .symbol 'a', "q"⟩, ⟨"q", .symbol 'b', "p"⟩]
    let D : DFA := ⟨.ofList ["p", "q"], .ofText "ab",
      .ofTriples [("p", 'a', "q"), ("q", 'b', "p")], "p", .ofList ["q"]⟩
    let b : AutomatonBuilder := ⟨none, none, ⟨"p", .symbol 'a', "p"⟩ :: es, ["r"]⟩
    ofParts .dfa ["p", "q"] (.ofText "ab") es "p" ["q"] = .ok (.dfa D) ∧
      (∀ e, e ∈ (AnyAutomaton.dfa D).edges ↔ e ∈ es) ∧
      ofParts .dfa ["q", "p", "q"] (.ofText "ab") es.reverse "p" ["q", "q"] = .ok (.dfa D) ∧
      Violates .dfa ["p", "q"] (.ofText "ab") es "p" ["r"] (.unknownFinalState "r") ∧
      ofKind .dfa (fun _ _ => b.build "p") = .error ⟨.dfa, .nondeterministic "p" 'a'⟩ ∧
      InvalidReason.nondeterministic "p" 'a' ≠ .unknownFinalState "r" := by
  intro es D b
  obtain ⟨-, hmade, horder, -, hbuilt⟩ :=
    ofParts_makes_what_is_admissible .dfa ["p", "q"] (.ofText "ab") es "p" ["q"]
  obtain ⟨-, -, -, hrefused, -⟩ :=
    ofParts_makes_what_is_admissible .dfa ["p", "q"] (.ofText "ab") es "p" ["r"]
  have hparts : ofParts .dfa ["p", "q"] (.ofText "ab") es "p" ["q"] = .ok (.dfa D) := by
    decide +kernel
  obtain ⟨-, -, -, hedges, -, -⟩ := hmade _ hparts
  have hstates (q : State) : q ∈ ["q", "p", "q"] ↔ q ∈ ["p", "q"] := by
    simp only [List.mem_cons, List.not_mem_nil, or_false]
    tauto
  have hsame := horder ["q", "p", "q"] es.reverse ["q", "q"] hstates (by simp) (by simp) (.dfa D)
  have hfinal : ofParts .dfa ["p", "q"] (.ofText "ab") es "p" ["r"] =
      .error ⟨.dfa, .unknownFinalState "r"⟩ := by decide +kernel
  have hchoice : ofKind .dfa (fun _ _ => b.build "p") =
      .error ⟨.dfa, .nondeterministic "p" 'a'⟩ := by decide +kernel
  exact ⟨hparts, hedges, hsame.mpr hparts, (hrefused _ hfinal).2, hchoice,
    (hbuilt b rfl rfl _ hchoice "r" 'a').2.1⟩

end AnyAutomaton

end RegularLanguages
