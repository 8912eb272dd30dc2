import RegularLanguages.Proofs.Checks
import RegularLanguages.Proofs.SoundSources

/-!
# Dictionaries keep everything

A key ends with its label, so it is split in only one way, whatever the name in front of the comma
is. The destinations under a key are the targets of the transitions that are written with this key.
So a dictionary has the transitions of the automaton it is written for, and reading it gives this
automaton back.
-/

namespace RegularLanguages

/-- If the character that stands for the empty move is no symbol, then no transition reads it. -/
theorem Automaton.WellFormed.label_ne {T : Type} [TransitionTable T] {A : Automaton T}
    (hA : A.WellFormed) (hepsilon : epsilonSymbol ∉ A.alphabet) {e : Edge} (he : e ∈ A.edges) :
    e.label ≠ .symbol epsilonSymbol :=
  fun hlabel => hepsilon (hA.symbol_mem e.source _ e.target (hlabel ▸ he))

namespace Dictionary

/-! ## Keys -/

/-- What stands in front of an ending. -/
@[simp] theorem dropEnding?_append (chars ending : List Char) :
    dropEnding? (chars ++ ending) ending = some chars := by
  simp [dropEnding?]

/-- A list has no ending with another last character than its own. -/
theorem dropEnding?_eq_none {chars ending : List Char} {a b : Char} (h : a ≠ b) :
    dropEnding? (chars ++ [a]) (ending ++ [b]) = none := by
  rw [dropEnding?, if_neg]
  rw [List.isSuffixOf_iff_suffix]
  intro hsuffix
  have hlast := hsuffix.getLast (by simp)
  simp only [List.getLast_append_singleton] at hlast
  exact h hlast.symm

/-- A key is the state, a comma and the text of the label. -/
theorem toList_key (q : State) (l : Label) :
    (key q l).toList = q.toList ++ ',' :: l.text.toList := by
  simp [key]

/-- The key of an empty move is split behind the last comma. -/
theorem splitKey?_epsilon (q : State) :
    splitKey? (key q .epsilon) Label.epsilon.text = some (q, .epsilon) := by
  rw [splitKey?, toList_key, dropEnding?_append]
  simp

/-- The key of a symbol that is not taken for the empty move is split in front of the comma that
stands before the symbol, even if the symbol is a comma. -/
theorem splitKey?_symbol (q : State) {a : Symbol} (ha : a ≠ RegularLanguages.epsilonSymbol) :
    splitKey? (key q (.symbol a)) Label.epsilon.text = some (q, .symbol a) := by
  have hchars : (key q (.symbol a)).toList = q.toList ++ [','] ++ [a] := by
    simp [toList_key, Label.text]
  have hsign : ',' :: Label.epsilon.text.toList = [','] ++ [RegularLanguages.epsilonSymbol] := rfl
  rw [splitKey?, hchars, hsign, dropEnding?_eq_none ha]
  simp only [List.getLast?_append, List.getLast?_singleton, Option.some_or]
  rw [List.append_assoc, List.singleton_append, dropEnding?_append]
  simp

/-- A key is split into its source and its label, except that the character of the empty move as a
symbol is taken for the empty move. -/
theorem splitKey?_key (q : State) (l : Label) : splitKey? (key q l) Label.epsilon.text =
    some (q, if l = .symbol RegularLanguages.epsilonSymbol then .epsilon else l) := by
  cases l with
  | epsilon => exact splitKey?_epsilon q
  | symbol a =>
    by_cases ha : a = RegularLanguages.epsilonSymbol
    · rw [ha, if_pos rfl]
      exact splitKey?_epsilon q
    · rw [if_neg fun h => ha (Label.symbol.inj h), splitKey?_symbol q ha]

/-! ## Destinations -/

/-- A state is one of the destinations of a key. -/
def Leads (m : Std.ExtTreeMap String Destinations) (k : String) (q : State) : Prop :=
  ∃ destinations, m[k]? = some destinations ∧ q ∈ destinations.toList

/-- The destinations of a key once a transition with this key has been added. -/
def extended (kind : Kind) (before : Option Destinations) (q : State) : Destinations :=
  match kind with
  | .dfa => .single q
  | .nfa | .epsilonNFA => .many ((before.elim [] Destinations.toList) ++ [q])

/-- Adding a transition changes what its own key leads to. -/
theorem getElem?_addEdge (kind : Kind) (m : Std.ExtTreeMap String Destinations) (e : Edge)
    (k : String) : (addEdge kind m e)[k]? =
      if key e.source e.label = k then some (extended kind m[k]? e.target) else m[k]? := by
  have hinsert (destinations : Destinations) :
      (m.insert (key e.source e.label) destinations)[k]? =
        if key e.source e.label = k then some destinations else m[k]? := by
    rw [Std.ExtTreeMap.getElem?_insert]
    simp only [Std.compare_eq_iff_eq]
  cases kind with
  | dfa => exact hinsert _
  | nfa | epsilonNFA =>
    cases hbefore : m[key e.source e.label]? with
    | none =>
      simp only [addEdge, hbefore, hinsert]
      refine ite_congr rfl (fun hk => ?_) fun _ => rfl
      simp [extended, ← hk, hbefore]
    | some destinations =>
      simp only [addEdge, hbefore, hinsert]
      refine ite_congr rfl (fun hk => ?_) fun _ => rfl
      simp [extended, ← hk, hbefore]

/-- The keys lead to the targets of the given transitions, and each key somewhere. -/
structure Writes (m : Std.ExtTreeMap String Destinations) (es : List Edge) : Prop where
  leads_iff : ∀ k q, Leads m k q ↔ ∃ e ∈ es, key e.source e.label = k ∧ e.target = q
  exists_leads : ∀ (k : String) (destinations : Destinations), m[k]? = some destinations →
    ∃ q, q ∈ destinations.toList

/-- One more transition is written, if kinds with single destinations do not have two for its
key. -/
theorem Writes.addEdge {kind : Kind} {m : Std.ExtTreeMap String Destinations} {es : List Edge}
    {e : Edge} (h : Writes m es) (hunique : kind = .dfa → ∀ e' ∈ es,
      key e'.source e'.label = key e.source e.label → e'.target = e.target) :
    Writes (addEdge kind m e) (es ++ [e]) where
  leads_iff k q := by
    have hbefore := h.leads_iff k q
    simp only [Leads, getElem?_addEdge, List.mem_append, List.mem_singleton, or_and_right,
      exists_or, exists_eq_left] at hbefore ⊢
    by_cases hk : key e.source e.label = k
    · subst hk
      simp only [if_true, Option.some.injEq, exists_eq_left', true_and]
      cases kind with
      | dfa =>
        simp only [extended, Destinations.toList, List.mem_singleton]
        constructor
        · exact fun hq => .inr hq.symm
        · intro hq
          rcases hq with ⟨e', he', hkey, rfl⟩ | rfl
          · exact hunique rfl e' he' hkey
          · rfl
      | nfa | epsilonNFA =>
        rw [← hbefore, extended, Destinations.toList, List.mem_append, List.mem_singleton,
          eq_comm (a := q)]
        cases m[key e.source e.label]? <;> simp
    · simp only [hk, if_false, false_and, or_false]
      exact hbefore
  exists_leads k destinations hk := by
    rw [getElem?_addEdge] at hk
    split at hk
    · obtain rfl := Option.some.inj hk
      refine ⟨e.target, ?_⟩
      cases kind <;> simp [extended, Destinations.toList]
    · exact h.exists_leads k destinations hk

/-- Transitions that are added one after another are written, if kinds with single destinations do
not have two for any key. -/
theorem writes_foldl_addEdge {kind : Kind} {es : List Edge}
    (hunique : kind = .dfa → ∀ e ∈ es, ∀ e' ∈ es,
      key e.source e.label = key e'.source e'.label → e.target = e'.target) :
    Writes (es.foldl (addEdge kind) ∅) es := by
  -- The last transition is the one that was added to what the others had written.
  induction es using List.reverseRecOn with
  | nil => exact ⟨by simp [Leads], by simp⟩
  | append_singleton es e ih =>
    rw [List.foldl_append, List.foldl_cons, List.foldl_nil]
    refine (ih fun hkind e he e' he' => ?_).addEdge fun hkind e' he' => ?_
    · exact hunique hkind e (List.mem_append_left _ he) e' (List.mem_append_left _ he')
    · exact hunique hkind e' (List.mem_append_left _ he') e (List.mem_append_right _ (by simp))

/-- Only a kind with single destinations is written with them. -/
theorem isMany_of_foldl_addEdge (kind : Kind) (es : List Edge) :
    ∀ (k : String) (destinations : Destinations),
      (es.foldl (addEdge kind) ∅)[k]? = some destinations →
        (destinations matches .many _) = (kind != .dfa) := by
  induction es using List.reverseRecOn with
  | nil => simp
  | append_singleton es e ih =>
    intro k destinations h
    rw [List.foldl_append, List.foldl_cons, List.foldl_nil, getElem?_addEdge] at h
    split at h
    · obtain rfl := Option.some.inj h
      cases kind <;> rfl
    · exact ih k destinations h

/-- The values of a map are those of its keys. -/
theorem values_eq_map_toList {β : Type} (m : Std.ExtTreeMap String β) :
    m.values = m.toList.map Prod.snd := by
  obtain ⟨⟨m⟩⟩ := m
  induction m using Quotient.ind with
  | _ m => calc
      m.values = (Std.DTreeMap.Const.toList m).foldr (fun entry values => entry.2 :: values) [] :=
        Std.DTreeMap.Const.foldr_eq_foldr_toList
      _ = (Std.DTreeMap.Const.toList m).map Prod.snd :=
        List.foldr_cons_eq_append.trans (List.append_nil _)

/-- Lists of destinations show up as soon as a kind with several destinations has a transition. -/
theorem any_isMany_iff (kind : Kind) (es : List Edge) :
    (es.foldl (addEdge kind) ∅).values.any (fun destinations => destinations matches .many _) =
      true ↔ kind ≠ .dfa ∧ es ≠ [] := by
  rw [values_eq_map_toList, List.any_map, List.any_eq_true]
  constructor
  · rintro ⟨⟨k, destinations⟩, hmem, hmany⟩
    have hk := Std.ExtTreeMap.mem_toList_iff_getElem?_eq_some.mp hmem
    have hkind := (isMany_of_foldl_addEdge kind es k destinations hk).symm.trans hmany
    refine ⟨by simpa using hkind, ?_⟩
    rintro rfl
    simp at hk
  · rintro ⟨hkind, hne⟩
    obtain ⟨es, e, rfl⟩ := (List.eq_nil_or_concat' es).resolve_left hne
    have hk : ((es ++ [e]).foldl (addEdge kind) ∅)[key e.source e.label]? =
        some (extended kind (es.foldl (addEdge kind) ∅)[key e.source e.label]? e.target) := by
      rw [List.foldl_append, List.foldl_cons, List.foldl_nil, getElem?_addEdge, if_pos rfl]
    refine ⟨_, Std.ExtTreeMap.mem_toList_iff_getElem?_eq_some.mpr hk, ?_⟩
    exact (isMany_of_foldl_addEdge kind _ _ _ hk).trans (by simpa using hkind)

/-! ## Reading -/

/-- The symbols that are listed one by one are read. -/
theorem symbols_map_toString (as : List Symbol) : symbols (as.map Char.toString) = .ok as := by
  induction as with
  | nil => rfl
  | cons a as ih => simp [symbols, ih]

/-- Entries with keys that can be split are read as the transitions to their destinations. -/
theorem exists_edges {epsilon : String} {entries : List (String × Destinations)}
    (hkeys : ∀ k destinations, (k, destinations) ∈ entries → (splitKey? k epsilon).isSome) :
    ∃ es, edges epsilon entries = .ok es ∧ ∀ e, e ∈ es ↔ ∃ k destinations,
      (k, destinations) ∈ entries ∧ splitKey? k epsilon = some (e.source, e.label) ∧
        e.target ∈ destinations.toList := by
  induction entries with
  | nil => exact ⟨[], rfl, by simp⟩
  | cons entry entries ih =>
    obtain ⟨k, destinations⟩ := entry
    obtain ⟨⟨source, label⟩, hsplit⟩ :=
      Option.isSome_iff_exists.mp (hkeys k destinations List.mem_cons_self)
    obtain ⟨es, hes, hmem⟩ := ih fun k' d hd => hkeys k' d (List.mem_cons_of_mem _ hd)
    refine ⟨destinations.toList.map (fun q => ⟨source, label, q⟩) ++ es, ?_, fun e => ?_⟩
    · simp only [edges, hsplit, hes]
    · have hfirst : (∃ q ∈ destinations.toList, (⟨source, label, q⟩ : Edge) = e) ↔
          splitKey? k epsilon = some (e.source, e.label) ∧ e.target ∈ destinations.toList := by
        obtain ⟨p, l, q⟩ := e
        simp only [hsplit, Edge.mk.injEq, Option.some.injEq, Prod.mk.injEq]
        constructor
        · rintro ⟨q, hq, rfl, rfl, rfl⟩
          exact ⟨⟨rfl, rfl⟩, hq⟩
        · rintro ⟨⟨rfl, rfl⟩, hq⟩
          exact ⟨q, hq, rfl, rfl, rfl⟩
      simp only [List.mem_append, List.mem_map, hfirst, hmem, List.mem_cons, Prod.mk.injEq,
        or_and_right, exists_or]
      simp

/-- Keys and destinations are read as the transitions that are written with them, if no symbol
looks like the empty move. -/
theorem Writes.exists_edges {m : Std.ExtTreeMap String Destinations} {es : List Edge}
    (h : Writes m es) : ∃ es', edges Label.epsilon.text m.toList = .ok es' ∧
      ((∀ e ∈ es, e.label ≠ .symbol RegularLanguages.epsilonSymbol) →
        ∀ e, e ∈ es' ↔ e ∈ es) := by
  have hentry {k : String} {destinations : Destinations} :
      (k, destinations) ∈ m.toList ↔ m[k]? = some destinations :=
    Std.ExtTreeMap.mem_toList_iff_getElem?_eq_some
  have hkeys (k : String) (destinations : Destinations) (hmem : (k, destinations) ∈ m.toList) :
      (splitKey? k Label.epsilon.text).isSome := by
    obtain ⟨q, hq⟩ := h.exists_leads k destinations (hentry.mp hmem)
    obtain ⟨e, -, rfl, -⟩ := (h.leads_iff k q).mp ⟨destinations, hentry.mp hmem, hq⟩
    simp [splitKey?_key]
  obtain ⟨es', hes', hmem⟩ := Dictionary.exists_edges hkeys
  refine ⟨es', hes', fun hlabels e => (hmem e).trans ⟨fun he => ?_, fun he => ?_⟩⟩
  · obtain ⟨k, destinations, hk, hsplit, hq⟩ := he
    obtain ⟨e', he', rfl, htarget⟩ := (h.leads_iff k e.target).mp ⟨destinations, hentry.mp hk, hq⟩
    rw [splitKey?_key, if_neg (hlabels e' he')] at hsplit
    have hsame : e' = e := by
      cases e
      cases e'
      simp_all
    exact hsame ▸ he'
  · obtain ⟨destinations, hk, hq⟩ := (h.leads_iff _ e.target).mpr ⟨e, he, rfl, rfl⟩
    exact ⟨_, destinations, hentry.mpr hk, by rw [splitKey?_key, if_neg (hlabels e he)], hq⟩

variable {T U : Type} [TransitionTable T] [TransitionTable U]

/-- A dictionary lists the parts of an automaton, with the usual sign of the empty move. -/
structure WrittenForm (d : Dictionary) (A : Automaton T) : Prop where
  states_eq : d.states = A.states.toList
  alphabet_eq : d.alphabet = A.alphabet.toList.map Char.toString
  writes : Writes d.transitions A.edges
  initial_eq : d.initial = A.initial
  finals_eq : d.finals = A.finals.toList
  epsilonText_eq : d.epsilonText = Label.epsilon.text

namespace WrittenForm

variable {d : Dictionary} {A : Automaton T} {B : Automaton U}

/-- Reading a written form checks the parts of the automaton. -/
theorem exists_toAutomaton_eq (h : d.WrittenForm A) : ∃ es,
    d.toAutomaton (T := U) =
      Automaton.ofParts A.states.toList A.alphabet es A.initial A.finals.toList ∧
    ((∀ e ∈ A.edges, e.label ≠ .symbol RegularLanguages.epsilonSymbol) →
      ∀ e, e ∈ es ↔ e ∈ A.edges) := by
  obtain ⟨es, hes, hmem⟩ := h.writes.exists_edges
  have halphabet : Alphabet.ofList A.alphabet.toList = A.alphabet :=
    FiniteSet.ofList_toList A.alphabet
  refine ⟨es, ?_, hmem⟩
  simp only [toAutomaton, h.alphabet_eq, symbols_map_toString, h.epsilonText_eq, hes, h.states_eq,
    halphabet, h.initial_eq, h.finals_eq]

/-- A written form with the character that stands for the empty move as a symbol is refused. -/
theorem toAutomaton_eq_error (h : d.WrittenForm A) (hA : A.WellFormed)
    (hepsilon : RegularLanguages.epsilonSymbol ∈ A.alphabet) :
    d.toAutomaton (T := U) = .error ⟨TransitionTable.kind U, .epsilonInAlphabet⟩ := by
  obtain ⟨es, hes, -⟩ := h.exists_toAutomaton_eq (U := U)
  rw [hes]
  exact Automaton.ofParts_eq_error ⟨A.initial, by simpa using hA.initial_mem⟩ hepsilon

/-- A written form is read as any sound automaton with the same parts, whatever its kind. -/
theorem toAutomaton_eq_ok [CanonicalTable U] [LawfulTransitionTable U] [ExactTransitionTable U]
    (h : d.WrittenForm A) (hB : B.Sound) (hsame : Automaton.SameParts A B)
    (hepsilon : RegularLanguages.epsilonSymbol ∉ A.alphabet) : d.toAutomaton = .ok B := by
  obtain ⟨es, hes, hmem⟩ := h.exists_toAutomaton_eq (U := U)
  have hA : A.WellFormed := hsame.symm.wellFormed hB.toWellFormed
  have hlabels (e : Edge) (he : e ∈ A.edges) :
      e.label ≠ .symbol RegularLanguages.epsilonSymbol := hA.label_ne hepsilon he
  rw [hes, hsame.states_eq, hsame.alphabet_eq, hsame.initial_eq, hsame.finals_eq]
  rw [hsame.alphabet_eq] at hepsilon
  refine hB.ofParts_eq_ok hepsilon (FiniteSet.ofList_toList _) (fun e => ?_)
    (FiniteSet.ofList_toList _)
  exact (hmem hlabels e).trans (hsame.moves_iff e.source e.label e.target)

end WrittenForm

end Dictionary

namespace Automaton

variable {T : Type} [TransitionTable T] {A : Automaton T}

/-- A sound automaton is written out. Only among deterministic ones does it matter that keys of
different transitions differ, since the others collect what a key leads to. -/
theorem Sound.writtenForm_toDictionary [CanonicalTable T] [ExactTransitionTable T] (hA : A.Sound)
    (hepsilon : A.kind = .dfa → epsilonSymbol ∉ A.alphabet) : A.toDictionary.WrittenForm A where
  states_eq := rfl
  alphabet_eq := rfl
  initial_eq := rfl
  finals_eq := rfl
  epsilonText_eq := by
    simp only [toDictionary, Dictionary.epsilonText]
    split <;> rfl
  writes := by
    refine Dictionary.writes_foldl_addEdge fun hkind e he e' he' hkey => ?_
    have hsplit := Dictionary.splitKey?_key e.source e.label
    rw [hkey, Dictionary.splitKey?_key, if_neg (hA.label_ne (hepsilon hkind) he),
      if_neg (hA.label_ne (hepsilon hkind) he')] at hsplit
    obtain ⟨hsource, hlabel⟩ := Prod.mk.inj (Option.some.inj hsplit)
    refine ExactTransitionTable.target_unique hkind (t := A.transitions) (p := e.source)
      (l := e.label) he ?_
    exact hsource ▸ hlabel ▸ he'

/-- What comes out of the checks is written out and read back. -/
theorem Sound.toAutomaton_toDictionary [CanonicalTable T] [LawfulTransitionTable T]
    [ExactTransitionTable T] (hA : A.Sound) (hepsilon : epsilonSymbol ∉ A.alphabet) :
    A.toDictionary.toAutomaton = .ok A :=
  (hA.writtenForm_toDictionary fun _ => hepsilon).toAutomaton_eq_ok hA (.refl A) hepsilon

/-- A written form looks like the kind of the automaton. Without transitions, nothing shows that it
is nondeterministic. -/
theorem kind_toDictionary (A : Automaton T) : A.toDictionary.kind =
    if A.kind = .nfa ∧ A.edges = [] then .dfa else A.kind := by
  have hlooks : A.toDictionary.kind = if A.kind = .epsilonNFA then .epsilonNFA
      else if A.kind ≠ .dfa ∧ A.edges ≠ [] then .nfa else .dfa := by
    refine if_congr ?_ rfl (if_congr (Dictionary.any_isMany_iff A.kind A.edges) rfl rfl)
    simp only [toDictionary]
    split <;> simp [*]
  rw [hlooks]
  cases A.kind <;> by_cases hedges : A.edges = [] <;> simp [hedges]

end Automaton

/-- A nondeterministic automaton without transitions, read as a deterministic one. -/
def NFA.still (N : NFA) : DFA where
  states := N.states
  alphabet := N.alphabet
  transitions := ⟨.empty⟩
  initial := N.initial
  finals := N.finals

/-- Without transitions, an automaton has the same parts as the deterministic one it is read as. -/
theorem NFA.sameParts_still {N : NFA} (hedges : N.edges = []) :
    Automaton.SameParts N N.still where
  states_eq := rfl
  alphabet_eq := rfl
  initial_eq := rfl
  finals_eq := rfl
  moves_iff p l q := by
    have hleft : ¬ N.Moves p l q := by simp [Automaton.Moves, hedges]
    have hright : ¬ N.still.Moves p l q :=
      LawfulTransitionTable.notMem_edges_empty (T := DeterministicTable) ⟨p, l, q⟩
    exact iff_of_false hleft hright

/-- The deterministic automaton as which an automaton without transitions is read is sound. -/
theorem NFA.sound_still {N : NFA} (hN : N.Sound) (hedges : N.edges = []) : N.still.Sound where
  toWellFormed := (sameParts_still hedges).wellFormed hN.toWellFormed
  canonical := DeterministicTable.canonical_empty

namespace AnyAutomaton

variable {A : AnyAutomaton}

/-- What comes out of the checks, of any kind, is sound and keeps the character that stands for the
empty move out of its alphabet. -/
theorem sound_and_epsilonSymbol_notMem_of_ofKind {kind : Kind} {states finals : List State}
    {alphabet : Alphabet} {es : List Edge} {initial : State}
    (h : ofKind kind (fun _ _ => Automaton.ofParts states alphabet es initial finals) = .ok A) :
    A.Sound ∧ epsilonSymbol ∉ A.alphabet := by
  refine ⟨sound_of_ofKind (fun _ _ _ _ _ => Automaton.sound_of_ofParts) h, ?_⟩
  cases kind <;>
  · obtain ⟨B, hmade, rfl⟩ := exists_of_map_eq_ok h
    exact Automaton.epsilonSymbol_notMem_of_ofParts hmade

/-- What is written out is read back as the kind that it is. -/
theorem Sound.toKind_toDictionary (hA : A.Sound) (hepsilon : epsilonSymbol ∉ A.alphabet) :
    A.toDictionary.toKind A.kind = .ok A := by
  cases A with
  | dfa D => exact congrArg (·.map dfa) (Automaton.Sound.toAutomaton_toDictionary hA hepsilon)
  | nfa N => exact congrArg (·.map nfa) (Automaton.Sound.toAutomaton_toDictionary hA hepsilon)
  | epsilonNFA E =>
    exact congrArg (·.map epsilonNFA) (Automaton.Sound.toAutomaton_toDictionary hA hepsilon)

/-- What is written out looks like the kind that it is, except that nothing shows that an automaton
without transitions is nondeterministic. -/
theorem kind_toDictionary (A : AnyAutomaton) : A.toDictionary.kind =
    if A.kind = .nfa ∧ A.edges = [] then .dfa else A.kind := by
  cases A <;> exact Automaton.kind_toDictionary _

/-- Writing out loses nothing. Read as the kind that it is, the written form of an automaton with
checked parts is this automaton; read as the kind that it looks like, it is an automaton with the
same parts. -/
theorem toDictionary_reads_back {kind : Kind} {states finals : List State} {alphabet : Alphabet}
    {es : List Edge} {initial : State}
    (h : ofKind kind (fun _ _ => Automaton.ofParts states alphabet es initial finals) = .ok A) :
    A.kind = kind ∧ A.toDictionary.toKind kind = .ok A ∧
    ∃ B : AnyAutomaton, A.toDictionary.toAny = .ok B ∧
      B.states = A.states ∧ B.alphabet = A.alphabet ∧ B.edges = A.edges ∧
      B.initial = A.initial ∧ B.finals = A.finals ∧
      B.kind = if A.kind = .nfa ∧ A.edges = [] then .dfa else A.kind := by
  obtain ⟨hA, hepsilon⟩ := sound_and_epsilonSymbol_notMem_of_ofKind h
  have hkind : A.kind = kind := by
    cases kind <;>
    · obtain ⟨B, -, rfl⟩ := exists_of_map_eq_ok h
      rfl
  refine ⟨hkind, hkind ▸ hA.toKind_toDictionary hepsilon, ?_⟩
  rw [Dictionary.toAny, kind_toDictionary]
  by_cases hstill : A.kind = .nfa ∧ A.edges = []
  · -- What is written is also the written form of a deterministic automaton.
    obtain ⟨hnfa, hedges⟩ := hstill
    cases A with
    | dfa | epsilonNFA => contradiction
    | nfa N =>
      have hwritten := Automaton.Sound.writtenForm_toDictionary hA (by rintro ⟨⟩)
      have hread := hwritten.toAutomaton_eq_ok (NFA.sound_still hA hedges)
        (NFA.sameParts_still hedges) hepsilon
      refine ⟨dfa N.still, ?_, rfl, rfl, hedges.symm, rfl, rfl, ?_⟩
      · rw [if_pos ⟨hnfa, hedges⟩]
        exact congrArg (·.map dfa) hread
      · rw [if_pos ⟨hnfa, hedges⟩]
        rfl
  · rw [if_neg hstill]
    exact ⟨A, hA.toKind_toDictionary hepsilon, rfl, rfl, rfl, rfl, rfl, rfl⟩

/-- The names of states here end in what keys end in: in commas, in the sign of the empty move, and
in symbols, of which the comma is one. -/
theorem toDictionary_reads_back_commas :
    let E : EpsilonNFA := ⟨.ofList ["", ",", ",ε", "\\,a"], .ofText ",a",
      .ofTriples [("", .symbol ',', ","), (",", .epsilon, ",ε"), (",", .symbol 'a', ""),
        (",ε", .epsilon, ""), (",ε", .epsilon, "\\,a"), ("\\,a", .symbol ',', "")], "",
      .ofList [",ε"]⟩
    ofKind .epsilonNFA (fun _ _ => Automaton.ofParts ["", ",", ",ε", "\\,a"] (.ofText ",a") E.edges
      "" [",ε"]) = .ok (.epsilonNFA E) ∧
    (epsilonNFA E).toDictionary.toKind .epsilonNFA = .ok (.epsilonNFA E) ∧
    ∃ B : AnyAutomaton, (epsilonNFA E).toDictionary.toAny = .ok B ∧ B.edges = E.edges := by
  intro E
  have hE : ofKind .epsilonNFA (fun _ _ => Automaton.ofParts ["", ",", ",ε", "\\,a"] (.ofText ",a")
      E.edges "" [",ε"]) = .ok (.epsilonNFA E) := by decide +kernel
  obtain ⟨-, hsame, B, hB, -, -, hedges, -⟩ := toDictionary_reads_back hE
  exact ⟨hE, hsame, B, hB, hedges⟩

end AnyAutomaton

end RegularLanguages
