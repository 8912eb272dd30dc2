import Mathlib.Data.List.Find
import RegularLanguages.Proofs.Homomorphisms

/-!
# Mappings of the empty move

A mapping should neither list the character for the empty move as a symbol nor have it as an image.
Homomorphisms refuse it as the image of a symbol of the alphabet, inverse homomorphisms as a symbol
with an image, and neither makes the other check. What is not refused has no effect: a homomorphism
reads the images of the symbols of the alphabet only, so what else a mapping lists does not matter,
and in an inverse homomorphism a symbol whose image is no symbol of the automaton leads nowhere.
-/

namespace RegularLanguages

/-- Whether a mapping has a fault depends on the images of the symbols of the alphabet. -/
theorem SymbolMap.fault?_congr {alphabet : Alphabet} {h h' : SymbolMap}
    (hsame : ∀ a ∈ alphabet, h[a]? = h'[a]?) : h.fault? alphabet = h'.fault? alphabet := by
  have hlist : ∀ a ∈ alphabet.toList, h[a]? = h'[a]? :=
    fun a ha => hsame a (Std.ExtTreeSet.mem_toList.mp ha)
  have hmissing : alphabet.toList.find? (fun a => !h.contains a) =
      alphabet.toList.find? fun a => !h'.contains a :=
    List.find?_congr fun a ha => by
      rw [Std.ExtTreeMap.contains_eq_isSome_getElem?, Std.ExtTreeMap.contains_eq_isSome_getElem?,
        hlist a ha]
  have hempty : alphabet.toList.find? (fun a => h[a]? == some epsilonSymbol) =
      alphabet.toList.find? fun a => h'[a]? == some epsilonSymbol :=
    List.find?_congr fun a ha => by rw [hlist a ha]
  rw [fault?, fault?, hmissing, hempty]

/-- With images for symbols, an automaton depends on the images of the symbols of its alphabet. -/
theorem NFA.mapSymbols_congr {N : NFA} {h h' : SymbolMap} (hN : N.WellFormed)
    (hsame : ∀ a ∈ N.alphabet, h[a]? = h'[a]?) : N.mapSymbols h = N.mapSymbols h' := by
  have halphabet : N.alphabet.toList.filterMap (fun a => h[a]?) =
      N.alphabet.toList.filterMap fun a => h'[a]? :=
    List.filterMap_congr fun a ha => hsame a (Std.ExtTreeSet.mem_toList.mp ha)
  rw [mapSymbols, mapSymbols, halphabet]
  congr 2
  refine List.filterMap_congr fun triple htriple => ?_
  obtain ⟨p, a, q⟩ := triple
  have hmove : N.Moves p (.symbol a) q := moves_symbol.mpr (EdgeTable.mem_triples.mp htriple)
  exact congrArg (Option.map fun b => (p, b, q)) (hsame a (hN.symbol_mem p a q hmove))

variable {A : AnyAutomaton} {h : SymbolMap}

/-- A homomorphism depends on the images of the symbols of the alphabet. -/
theorem homomorphism_congr {h' : SymbolMap} (hA : A.WellFormed)
    (hsame : ∀ a ∈ A.alphabet, h[a]? = h'[a]?) : homomorphism A h = homomorphism A h' := by
  rw [homomorphism, homomorphism, SymbolMap.fault?_congr hsame,
    NFA.mapSymbols_congr (AnyAutomaton.toNFA_spec hA).1]
  rwa [AnyAutomaton.alphabet_toNFA]

/-- No homomorphism has the character for the empty move as a symbol. -/
theorem epsilonSymbol_notMem_of_homomorphism {N : NFA} (hmade : homomorphism A h = .ok N) :
    epsilonSymbol ∉ N.alphabet := by
  obtain ⟨himages, rfl⟩ := homomorphism_eq_ok_iff.mp hmade
  intro hmem
  obtain ⟨a, ha, hempty⟩ := NFA.mem_alphabet_mapSymbols.mp hmem
  rw [AnyAutomaton.alphabet_toNFA] at ha
  exact (himages a ha).2 hempty

/-- An inverse homomorphism accepts no word with a symbol whose image is foreign to the
automaton. -/
theorem accepts_eq_false_of_foreign_image {N : NFA} (hA : A.WellFormed) {a b : Symbol} {w : Word}
    (hmade : inverseHomomorphism A h = .ok N) (hb : h[a]? = some b) (hforeign : b ∉ A.alphabet)
    (ha : a ∈ w) : N.accepts w = false := by
  obtain ⟨-, rfl⟩ := inverseHomomorphism_eq_ok_iff.mp hmade
  obtain ⟨hN, haccepts⟩ := AnyAutomaton.toNFA_spec hA
  rw [← Bool.not_eq_true, NFA.accepts_readThrough_iff hN]
  intro hword
  obtain ⟨v, hv, haccepted⟩ := hword
  rw [haccepts] at haccepted
  have hmem : b ∈ v := SymbolMap.mem_of_image?_eq_some hv ha hb
  exact hforeign (AnyAutomaton.symbol_mem_of_accepts hA haccepted b hmem)

/-- A mapping that takes a symbol of the alphabet to the character for the empty move is refused for
a homomorphism, and one that lists this character as a symbol for an inverse homomorphism. The
other way round, nothing is refused. A homomorphism is the same with and without the character as a
symbol of the mapping. An inverse homomorphism accepts no word with a symbol whose image is the
character. Neither has the character in its alphabet. -/
theorem mappings_of_empty_move_are_refused_or_idle (hA : A.WellFormed)
    (halphabet : epsilonSymbol ∉ A.alphabet) (h : SymbolMap) :
    ((∃ a ∈ A.alphabet, h[a]? = some epsilonSymbol) →
      ∃ e, homomorphism A h = .error e ∧ e.operation? = some "homomorphism") ∧
    homomorphism A h = homomorphism A (h.erase epsilonSymbol) ∧
    (∀ N, homomorphism A h = .ok N → epsilonSymbol ∉ N.alphabet) ∧
    (epsilonSymbol ∈ h → ∃ e, inverseHomomorphism A h = .error e ∧
      e.operation? = some "inverse_homomorphism") ∧
    (epsilonSymbol ∉ h → ∃ N, inverseHomomorphism A h = .ok N ∧ epsilonSymbol ∉ N.alphabet ∧
      ∀ a, h[a]? = some epsilonSymbol →
        a ∈ N.alphabet ∧ ∀ w, a ∈ w → N.accepts w = false) := by
  refine ⟨fun himage => ?_, homomorphism_congr hA fun a ha => ?_,
    fun N => epsilonSymbol_notMem_of_homomorphism, fun hkey => ?_, fun hkeys => ?_⟩
  · obtain ⟨a, ha, hempty⟩ := himage
    obtain ⟨e, he, hoperation, -⟩ := exists_homomorphism_eq_error ⟨a, ha, .inr hempty⟩
    exact ⟨e, he, hoperation⟩
  · have hne : epsilonSymbol ≠ a := fun heq => halphabet (heq ▸ ha)
    rw [Std.ExtTreeMap.getElem?_erase, if_neg (by simpa using hne)]
  · exact ⟨.emptySource, if_pos (Std.ExtTreeMap.contains_iff_mem.mpr hkey), rfl⟩
  · have hmade := inverseHomomorphism_eq_ok_iff (A := A).mpr ⟨hkeys, rfl⟩
    refine ⟨_, hmade, fun hmem => hkeys (NFA.mem_alphabet_readThrough.mp hmem), fun a ha => ?_⟩
    refine ⟨NFA.mem_alphabet_readThrough.mpr ?_, fun w hw => ?_⟩
    · exact Std.ExtTreeMap.mem_iff_isSome_getElem?.mpr (by simp [ha])
    · exact accepts_eq_false_of_foreign_image hA hmade ha halphabet hw

/-- Mappings for an automaton of two states and two symbols. The first is refused for the image of
`b`. The second lists the character for the empty move, and the homomorphism is the same without it.
In the third it is the image of `0`, and the inverse homomorphism has `0` as a symbol that leads
nowhere. -/
theorem mappings_of_empty_move_for_two_symbols :
    let D : DFA := ⟨.ofList ["p", "q"], .ofText "ab",
      .ofTriples [("p", 'a', "q"), ("q", 'b', "p")], "p", .ofList ["q"]⟩
    let h : SymbolMap := .ofList [('a', 'c'), ('b', 'c'), (epsilonSymbol, 'c')]
    D.WellFormed ∧ epsilonSymbol ∉ AnyAutomaton.alphabet D ∧
      (∃ e, homomorphism D (.ofList [('a', 'c'), ('b', epsilonSymbol)]) = .error e ∧
        e.operation? = some "homomorphism") ∧
      homomorphism D h = homomorphism D (h.erase epsilonSymbol) ∧
      (∃ e, inverseHomomorphism D h = .error e ∧ e.operation? = some "inverse_homomorphism") ∧
      ∃ N, inverseHomomorphism D (.ofList [('0', epsilonSymbol), ('1', 'a')]) = .ok N ∧
        '0' ∈ N.alphabet ∧ N.accepts ['0', '1'] = false := by
  intro D h
  have hD : D.WellFormed := by
    apply DFA.wellFormed_ofTriples <;> simp_all [Alphabet.ofText]
    grind
  have halphabet : epsilonSymbol ∉ AnyAutomaton.alphabet D := by decide +kernel
  obtain ⟨himage, -⟩ := mappings_of_empty_move_are_refused_or_idle (A := D) hD halphabet
    (.ofList [('a', 'c'), ('b', epsilonSymbol)])
  obtain ⟨-, hsame, -, hkey, -⟩ :=
    mappings_of_empty_move_are_refused_or_idle (A := D) hD halphabet h
  obtain ⟨-, -, -, -, hkeys⟩ := mappings_of_empty_move_are_refused_or_idle (A := D) hD halphabet
    (.ofList [('0', epsilonSymbol), ('1', 'a')])
  obtain ⟨N, hN, -, hidle⟩ := hkeys (by decide +kernel)
  obtain ⟨hmem, hrejected⟩ := hidle '0' (by decide +kernel)
  exact ⟨hD, halphabet, himage ⟨'b', by decide +kernel, by decide +kernel⟩, hsame,
    hkey (by decide +kernel), N, hN, hmem, hrejected _ (by decide)⟩

/-- Not all homomorphisms with a mapping that lists the character for the empty move are refused,
nor are all inverse homomorphisms with a mapping that has it as an image. -/
theorem not_forall_mappings_of_empty_move_refused :
    (¬ ∀ (A : AnyAutomaton) (h : SymbolMap), A.WellFormed → epsilonSymbol ∉ A.alphabet →
      (epsilonSymbol ∈ h ∨ ∃ a ∈ A.alphabet, h[a]? = some epsilonSymbol) →
      ∃ e, homomorphism A h = .error e) ∧
    ¬ ∀ (A : AnyAutomaton) (h : SymbolMap), A.WellFormed → epsilonSymbol ∉ A.alphabet →
      (epsilonSymbol ∈ h ∨ ∃ a ∈ h, h[a]? = some epsilonSymbol) →
      ∃ e, inverseHomomorphism A h = .error e := by
  let D : DFA := ⟨.ofList ["p", "q"], .ofText "ab",
    .ofTriples [("p", 'a', "q"), ("q", 'b', "p")], "p", .ofList ["q"]⟩
  have hD : D.WellFormed := by
    apply DFA.wellFormed_ofTriples <;> simp_all [Alphabet.ofText]
    grind
  have halphabet : epsilonSymbol ∉ AnyAutomaton.alphabet D := by decide +kernel
  have hsymbols : ∀ a ∈ AnyAutomaton.alphabet D, a = 'a' ∨ a = 'b' := by
    intro a ha
    simpa using Alphabet.mem_ofList.mp ha
  refine ⟨fun hrefused => ?_, fun hrefused => ?_⟩
  · let h : SymbolMap := .ofList [('a', 'c'), ('b', 'c'), (epsilonSymbol, 'c')]
    have himages : ∀ a ∈ AnyAutomaton.alphabet D, a ∈ h ∧ h[a]? ≠ some epsilonSymbol := by
      intro a ha
      rcases hsymbols a ha with rfl | rfl <;> decide +kernel
    have hmade := homomorphism_eq_ok_iff (A := D).mpr ⟨himages, rfl⟩
    obtain ⟨e, he⟩ := hrefused D h hD halphabet (.inl (by decide +kernel))
    rw [hmade] at he
    contradiction
  · let h : SymbolMap := .ofList [('0', epsilonSymbol), ('1', 'a')]
    have hkeys : epsilonSymbol ∉ h := by decide +kernel
    have hmade := inverseHomomorphism_eq_ok_iff (A := D).mpr ⟨hkeys, rfl⟩
    obtain ⟨e, he⟩ := hrefused D h hD halphabet
      (.inr ⟨'0', by decide +kernel, by decide +kernel⟩)
    rw [hmade] at he
    contradiction

end RegularLanguages
