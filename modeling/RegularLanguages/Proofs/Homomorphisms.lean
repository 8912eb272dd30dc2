import RegularLanguages.Operations.Regular
import RegularLanguages.Proofs.Kinds

/-!
# Homomorphisms and inverse homomorphisms

A mapping of symbols takes a word to its image, symbol by symbol. Reading each transition over the
image of its symbol, an automaton accepts the images of its words; several symbols may have one
image, and then a run on the image chooses one of them at each place. Reading a symbol like its
image, an automaton accepts the words whose images it accepts before.
-/

namespace RegularLanguages

namespace SymbolMap

variable {h : SymbolMap} {alphabet : Alphabet} {v w : Word}

/-- The word with the image of each symbol in its place, if all its symbols have one. -/
def image? (h : SymbolMap) (w : Word) : Option Word := w.mapM fun a => h[a]?

/-- The image of the empty word is empty. -/
@[simp] theorem image?_nil : h.image? [] = some [] := rfl

/-- The image of a word begins with the image of its first symbol. -/
@[simp] theorem image?_cons {a : Symbol} :
    h.image? (a :: v) = h[a]?.bind fun b => (h.image? v).map (b :: ·) := by
  rw [image?, List.mapM_cons]
  cases h[a]? with
  | none => rfl
  | some b => cases hv : h.image? v <;> simp_all [image?]

/-- The image of a word has the images of its symbols. -/
theorem image?_eq_some_iff :
    h.image? v = some w ↔ List.Forall₂ (fun a b => h[a]? = some b) v w := by
  induction v generalizing w with
  | nil => simp [eq_comm]
  | cons a v ih =>
    simp only [image?_cons, Option.bind_eq_some_iff, Option.map_eq_some_iff, ih,
      List.forall₂_cons_left_iff]
    constructor
    · intro himage
      obtain ⟨b, hb, u, hu, rfl⟩ := himage
      exact ⟨b, u, hb, hu, rfl⟩
    · intro hsymbols
      obtain ⟨b, u, hb, hu, rfl⟩ := hsymbols
      exact ⟨b, hb, u, hu, rfl⟩

/-- A word has an image if all its symbols have one. -/
theorem exists_image?_eq_some_iff : (∃ v, h.image? w = some v) ↔ ∀ a ∈ w, a ∈ h := by
  induction w with
  | nil => simp
  | cons a w ih =>
    rw [List.forall_mem_cons, ← ih, Std.ExtTreeMap.mem_iff_isSome_getElem?,
      Option.isSome_iff_exists]
    simp only [image?_cons, Option.bind_eq_some_iff, Option.map_eq_some_iff]
    constructor
    · intro himage
      obtain ⟨_, b, hb, v, hv, -⟩ := himage
      exact ⟨⟨b, hb⟩, v, hv⟩
    · intro himages
      obtain ⟨⟨b, hb⟩, v, hv⟩ := himages
      exact ⟨b :: v, b, hb, v, hv, rfl⟩

/-- The image of a word has the image of each of its symbols. -/
theorem mem_of_image?_eq_some {a b : Symbol} (hw : h.image? w = some v) (ha : a ∈ w)
    (hb : h[a]? = some b) : b ∈ v := by
  rw [image?_eq_some_iff] at hw
  induction hw with
  | nil => cases ha
  | cons hfirst _ ih =>
    rcases List.mem_cons.mp ha with rfl | ha
    · exact List.mem_cons.mpr (.inl (Option.some.inj (hb.symm.trans hfirst)))
    · exact List.mem_cons_of_mem _ (ih ha)

/-- The fault of a mapping is a symbol of the alphabet that has no image, or one whose image is the
character that stands for the empty move. -/
theorem of_fault?_eq_some {e : OperationError} (hfault : h.fault? alphabet = some e) :
    ∃ a ∈ alphabet, (a ∉ h ∧ e = .noImage a) ∨
      (h[a]? = some epsilonSymbol ∧ e = .emptyImage a) := by
  rw [fault?] at hfault
  split at hfault
  · rename_i a hfind
    obtain rfl := Option.some.inj hfault
    have hnone : a ∉ h := by simpa [← Std.ExtTreeMap.contains_iff_mem] using List.find?_some hfind
    exact ⟨a, Std.ExtTreeSet.mem_toList.mp (List.mem_of_find?_eq_some hfind), .inl ⟨hnone, rfl⟩⟩
  · split at hfault
    · rename_i a hfind
      obtain rfl := Option.some.inj hfault
      have hempty : h[a]? = some epsilonSymbol := by simpa using List.find?_some hfind
      exact ⟨a, Std.ExtTreeSet.mem_toList.mp (List.mem_of_find?_eq_some hfind), .inr ⟨hempty, rfl⟩⟩
    · contradiction

/-- A mapping has no fault if it takes each symbol of the alphabet to a symbol, and none to the
character that stands for the empty move. -/
theorem fault?_eq_none_iff :
    h.fault? alphabet = none ↔ ∀ a ∈ alphabet, a ∈ h ∧ h[a]? ≠ some epsilonSymbol := by
  constructor
  · intro hfault a ha
    rw [fault?] at hfault
    split at hfault
    · contradiction
    · rename_i hmissing
      split at hfault
      · contradiction
      · rename_i hempty
        rw [← Std.ExtTreeSet.mem_toList] at ha
        exact ⟨by simpa using List.find?_eq_none.mp hmissing a ha,
          by simpa using List.find?_eq_none.mp hempty a ha⟩
  · intro himages
    rw [Option.eq_none_iff_forall_ne_some]
    intro e hfault
    obtain ⟨a, ha, ⟨hmissing, -⟩ | ⟨hempty, -⟩⟩ := of_fault?_eq_some hfault
    · exact hmissing (himages a ha).1
    · exact (himages a ha).2 hempty

end SymbolMap

/-- If symbols lead where the symbols do that they stand for, then the words are recognized that
stand for recognized ones, symbol by symbol. -/
theorem Automaton.recognizes_relabel_iff {T : Type} [TransitionTable T] {A B : Automaton T}
    {stands : Symbol → Symbol → Prop} {w : Word} (hinitial : B.initial = A.initial)
    (hfinals : B.finals = A.finals) (hempty : ∀ p q, B.Moves p .epsilon q ↔ A.Moves p .epsilon q)
    (hread : ∀ p b q, B.Moves p (.symbol b) q ↔ ∃ a, stands a b ∧ A.Moves p (.symbol a) q) :
    B.Recognizes w ↔ ∃ v, List.Forall₂ stands v w ∧ A.Recognizes v := by
  simp only [Recognizes, hinitial, hfinals, Trace.relabel_iff hempty hread]
  constructor
  · intro h
    obtain ⟨q, hq, v, hv, htrace⟩ := h
    exact ⟨v, hv, q, hq, htrace⟩
  · intro h
    obtain ⟨v, hv, q, hq, htrace⟩ := h
    exact ⟨q, hq, v, hv, htrace⟩

namespace NFA

variable {N : NFA} {h : SymbolMap} {p q : State} {a b : Symbol} {w : Word}

/-- A symbol leads where those symbols lead of which it is the image. -/
theorem mem_successors_mapSymbols :
    q ∈ (N.mapSymbols h).successors p b ↔ ∃ a, h[a]? = some b ∧ q ∈ N.successors p a := by
  simp only [successors, mapSymbols, EdgeTable.mem_successors_ofTriples, List.mem_filterMap,
    Prod.exists, EdgeTable.mem_triples, Option.map_eq_some_iff, Prod.mk.injEq]
  constructor
  · intro hmem
    obtain ⟨p, a, q, hq, b, hb, rfl, rfl, rfl⟩ := hmem
    exact ⟨a, hb, hq⟩
  · intro hmem
    obtain ⟨a, hb, hq⟩ := hmem
    exact ⟨p, a, q, hq, b, hb, rfl, rfl, rfl⟩

/-- A symbol leads where its image leads. -/
theorem mem_successors_readThrough (hN : N.WellFormed) :
    q ∈ (N.readThrough h).successors p a ↔ ∃ b, h[a]? = some b ∧ q ∈ N.successors p b := by
  simp only [successors, readThrough, EdgeTable.mem_successors_ofTriples, List.mem_flatMap,
    List.mem_map, Prod.exists, Prod.mk.injEq, Std.ExtTreeSet.mem_toList,
    Std.ExtTreeMap.mem_toList_iff_getElem?_eq_some]
  constructor
  · intro hmem
    obtain ⟨p, -, a, b, hb, q, hq, rfl, rfl, rfl⟩ := hmem
    exact ⟨b, hb, hq⟩
  · intro hmem
    obtain ⟨b, hb, hq⟩ := hmem
    have hp := hN.source_mem p (.symbol b) q (moves_symbol.mpr hq)
    exact ⟨p, hp, a, b, hb, q, hq, rfl, rfl, rfl⟩

/-- The symbols of the image of an automaton are the images of its symbols. -/
theorem mem_alphabet_mapSymbols :
    b ∈ (N.mapSymbols h).alphabet ↔ ∃ a ∈ N.alphabet, h[a]? = some b := by
  simp [mapSymbols]

/-- An automaton that is read through a mapping has the symbols that are mapped. -/
theorem mem_alphabet_readThrough : a ∈ (N.readThrough h).alphabet ↔ a ∈ h := by
  simp [readThrough]

/-- With images for symbols, the images of the accepted words are accepted. -/
theorem accepts_mapSymbols_iff :
    (N.mapSymbols h).accepts w = true ↔ ∃ v, N.accepts v = true ∧ h.image? v = some w := by
  simp only [accepts_iff, SymbolMap.image?_eq_some_iff, and_comm (a := N.Recognizes _)]
  exact Automaton.recognizes_relabel_iff rfl rfl (by simp) (by simp [mem_successors_mapSymbols])

/-- With symbols read like their images, the words are accepted whose images are accepted before. -/
theorem accepts_readThrough_iff (hN : N.WellFormed) :
    (N.readThrough h).accepts w = true ↔ ∃ v, h.image? w = some v ∧ N.accepts v = true := by
  have hflip (v : Word) : List.Forall₂ (fun a b => h[a]? = some b) w v ↔
      List.Forall₂ (fun b a => h[a]? = some b) v w := ⟨.flip, .flip⟩
  simp only [accepts_iff, SymbolMap.image?_eq_some_iff, hflip]
  exact Automaton.recognizes_relabel_iff rfl rfl (by simp)
    (by simp [mem_successors_readThrough hN])

end NFA

variable {A : AnyAutomaton} {h : SymbolMap}

/-- A homomorphism needs a mapping without faults. -/
theorem homomorphism_eq_ok_iff {N : NFA} : homomorphism A h = .ok N ↔
    (∀ a ∈ A.alphabet, a ∈ h ∧ h[a]? ≠ some epsilonSymbol) ∧ A.toNFA.mapSymbols h = N := by
  rw [homomorphism, ← SymbolMap.fault?_eq_none_iff]
  cases h.fault? A.alphabet with
  | none => simp
  | some e => simp

/-- A mapping with a fault is refused for one of its faults. -/
theorem exists_homomorphism_eq_error
    (hfault : ∃ a ∈ A.alphabet, a ∉ h ∨ h[a]? = some epsilonSymbol) :
    ∃ e, homomorphism A h = .error e ∧ e.operation? = some "homomorphism" ∧
      ∃ a ∈ A.alphabet, (a ∉ h ∧ e = .noImage a) ∨
        (h[a]? = some epsilonSymbol ∧ e = .emptyImage a) := by
  cases hfound : h.fault? A.alphabet with
  | none =>
    obtain ⟨a, ha, hbad⟩ := hfault
    obtain ⟨hmem, hne⟩ := SymbolMap.fault?_eq_none_iff.mp hfound a ha
    exact absurd hbad (not_or.mpr ⟨not_not.mpr hmem, hne⟩)
  | some e =>
    have hcause := SymbolMap.of_fault?_eq_some hfound
    refine ⟨e, by rw [homomorphism, hfound], ?_, hcause⟩
    obtain ⟨a, -, ⟨-, rfl⟩ | ⟨-, rfl⟩⟩ := hcause <;> rfl

/-- An inverse homomorphism needs a mapping that does not list the character for the empty move. -/
theorem inverseHomomorphism_eq_ok_iff {N : NFA} : inverseHomomorphism A h = .ok N ↔
    epsilonSymbol ∉ h ∧ A.toNFA.readThrough h = N := by
  rw [inverseHomomorphism, ← Std.ExtTreeMap.contains_iff_mem]
  cases h.contains epsilonSymbol with
  | false => simp
  | true => simp

/-- With a mapping that takes each symbol of the alphabet to a symbol, injective or not, the
homomorphism of an automaton of any kind accepts the images of the words that the automaton accepts,
over the images of its symbols. If a symbol has no image or one that stands for the empty move, the
mapping is refused for such a symbol. -/
theorem homomorphism_accepts_images (hA : A.WellFormed) (h : SymbolMap) :
    ((∀ a ∈ A.alphabet, a ∈ h ∧ h[a]? ≠ some epsilonSymbol) →
      ∃ N, homomorphism A h = .ok N ∧
        (∀ b, b ∈ N.alphabet ↔ ∃ a ∈ A.alphabet, h[a]? = some b) ∧
        (∀ w, N.accepts w = true ↔ ∃ v, A.accepts v = true ∧ h.image? v = some w) ∧
        ∀ v, A.accepts v = true → ∃ w, h.image? v = some w) ∧
    ((∃ a ∈ A.alphabet, a ∉ h ∨ h[a]? = some epsilonSymbol) →
      ∃ e, homomorphism A h = .error e ∧ e.operation? = some "homomorphism" ∧
        ∃ a ∈ A.alphabet, (a ∉ h ∧ e = .noImage a) ∨
          (h[a]? = some epsilonSymbol ∧ e = .emptyImage a)) := by
  refine ⟨fun himages => ?_, exists_homomorphism_eq_error⟩
  obtain ⟨-, haccepts⟩ := AnyAutomaton.toNFA_spec hA
  refine ⟨_, homomorphism_eq_ok_iff.mpr ⟨himages, rfl⟩, fun b => ?_, fun w => ?_, fun v hv => ?_⟩
  · rw [NFA.mem_alphabet_mapSymbols, AnyAutomaton.alphabet_toNFA]
  · simp only [NFA.accepts_mapSymbols_iff, haccepts]
  · have hsymbols := AnyAutomaton.symbol_mem_of_accepts hA hv
    exact SymbolMap.exists_image?_eq_some_iff.mpr fun a ha => (himages a (hsymbols a ha)).1

/-- Two symbols have one image, and an empty move leads past the first of them. The image of either
word is accepted. Without an image for one of the symbols, or with the character for the empty move
as one, there is no homomorphism. -/
theorem homomorphism_of_two_symbols_with_one_image :
    let E : EpsilonNFA := ⟨.ofList ["p", "q", "r"], .ofText "ab",
      .ofTriples [("p", .symbol 'a', "q"), ("p", .epsilon, "q"), ("q", .symbol 'b', "r")], "p",
      .ofList ["r"]⟩
    E.WellFormed ∧
      (∃ N, homomorphism E (.ofList [('a', 'x'), ('b', 'x'), ('c', epsilonSymbol)]) = .ok N ∧
        N.accepts ['x', 'x'] = true ∧ N.accepts ['x'] = true) ∧
      (∃ e, homomorphism E (.ofList [('a', 'x')]) = .error e ∧
        e.operation? = some "homomorphism") ∧
      ∃ e, homomorphism E (.ofList [('a', epsilonSymbol), ('b', 'b')]) = .error e ∧
        e.operation? = some "homomorphism" := by
  intro E
  have hE : E.WellFormed := by
    apply EpsilonNFA.wellFormed_ofTriples <;> simp_all [Alphabet.ofText]
    grind
  obtain ⟨hmakes, -⟩ := homomorphism_accepts_images (A := E) hE
    (.ofList [('a', 'x'), ('b', 'x'), ('c', epsilonSymbol)])
  obtain ⟨-, hmissing⟩ := homomorphism_accepts_images (A := E) hE (.ofList [('a', 'x')])
  obtain ⟨-, hempty⟩ := homomorphism_accepts_images (A := E) hE
    (.ofList [('a', epsilonSymbol), ('b', 'b')])
  have hsymbols : ∀ a ∈ AnyAutomaton.alphabet E, a = 'a' ∨ a = 'b' := by
    intro a ha
    simpa using Alphabet.mem_ofList.mp ha
  obtain ⟨N, hN, -, haccepts, -⟩ := hmakes fun a ha => by
    rcases hsymbols a ha with rfl | rfl <;> decide +kernel
  obtain ⟨e, he, hoperation, -⟩ :=
    hmissing ⟨'b', by decide +kernel, .inl (by decide +kernel)⟩
  obtain ⟨e', he', hoperation', -⟩ :=
    hempty ⟨'a', by decide +kernel, .inr (by decide +kernel)⟩
  refine ⟨hE, ⟨N, hN, ?_, ?_⟩, ⟨e, he, hoperation⟩, e', he', hoperation'⟩
  · exact (haccepts _).mpr ⟨['a', 'b'], by decide +kernel, by decide +kernel⟩
  · exact (haccepts _).mpr ⟨['b'], by decide +kernel, by decide +kernel⟩

/-- With a mapping that does not list the character for the empty move as a symbol, there is an
inverse homomorphism of an automaton of any kind. Its alphabet has the symbols that have images, and
it accepts the words over them whose images the automaton accepts. Images may coincide, and they may
be foreign to the automaton. -/
theorem inverseHomomorphism_accepts_words_with_accepted_images (hA : A.WellFormed)
    (hkeys : epsilonSymbol ∉ h) :
    ∃ N, inverseHomomorphism A h = .ok N ∧ (∀ a, a ∈ N.alphabet ↔ a ∈ h) ∧
      ∀ w, N.accepts w = true ↔
        (∀ a ∈ w, a ∈ h) ∧ ∃ v, h.image? w = some v ∧ A.accepts v = true := by
  obtain ⟨hN, haccepts⟩ := AnyAutomaton.toNFA_spec hA
  refine ⟨_, inverseHomomorphism_eq_ok_iff.mpr ⟨hkeys, rfl⟩,
    fun a => NFA.mem_alphabet_readThrough, fun w => ?_⟩
  simp only [NFA.accepts_readThrough_iff hN, haccepts]
  refine (and_iff_right_of_imp fun hword => ?_).symm
  obtain ⟨v, hv, -⟩ := hword
  exact SymbolMap.exists_image?_eq_some_iff.mp ⟨v, hv⟩

/-- Two symbols have one image, and the image of a third is foreign to the automaton. Words are
accepted with either of the two, not with the third and not with a symbol that has no image. -/
theorem inverseHomomorphism_of_coinciding_and_foreign_images :
    let D : DFA := ⟨.ofList ["p", "q", "r"], .ofText "ab",
      .ofTriples [("p", 'a', "q"), ("q", 'b', "r")], "p", .ofList ["r"]⟩
    let h : SymbolMap := .ofList [('0', 'a'), ('1', 'b'), ('2', 'b'), ('3', 'z')]
    D.WellFormed ∧ epsilonSymbol ∉ h ∧ ∃ N, inverseHomomorphism D h = .ok N ∧
      N.accepts ['0', '1'] = true ∧ N.accepts ['0', '2'] = true ∧
      N.accepts ['0', '3'] = false ∧ N.accepts ['a', 'b'] = false := by
  intro D h
  have hD : D.WellFormed := by
    apply DFA.wellFormed_ofTriples <;> simp_all [Alphabet.ofText]
    grind
  have hkeys : epsilonSymbol ∉ h := by decide +kernel
  obtain ⟨N, hN, -, haccepts⟩ :=
    inverseHomomorphism_accepts_words_with_accepted_images (A := D) hD hkeys
  refine ⟨hD, hkeys, N, hN, ?_, ?_, ?_, ?_⟩
  · have himage : h.image? ['0', '1'] = some ['a', 'b'] := by decide +kernel
    exact (haccepts _).mpr ⟨SymbolMap.exists_image?_eq_some_iff.mp ⟨_, himage⟩, _, himage,
      by decide +kernel⟩
  · have himage : h.image? ['0', '2'] = some ['a', 'b'] := by decide +kernel
    exact (haccepts _).mpr ⟨SymbolMap.exists_image?_eq_some_iff.mp ⟨_, himage⟩, _, himage,
      by decide +kernel⟩
  · rw [← Bool.not_eq_true, haccepts]
    rintro ⟨-, v, hv, hword⟩
    have himage : h.image? ['0', '3'] = some ['a', 'z'] := by decide +kernel
    obtain rfl := Option.some.inj (himage.symm.trans hv)
    exact absurd hword (by decide +kernel)
  · rw [← Bool.not_eq_true, haccepts]
    exact fun hword => absurd (hword.1 'a' (by decide)) (by decide +kernel)

end RegularLanguages
