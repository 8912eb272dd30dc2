import RegularLanguages.Proofs.Dictionaries
import RegularLanguages.Proofs.Embeddings
import RegularLanguages.Proofs.Violations

/-!
# Dictionaries read as other kinds

A dictionary says the same to readers of all kinds: one destination or a list of them, with or
without a sign for the empty move. Whatever kind it is read as, out comes the sound automaton of
this kind with the parts that were written, if there is one. The conversions that keep the parts
make this automaton too.
-/

namespace RegularLanguages

namespace Dictionary.WrittenForm

variable {T U : Type} [TransitionTable T] [TransitionTable U] {d : Dictionary} {A : Automaton T}
  {B : Automaton U}

/-- What a written form is read as has the parts that were written. -/
theorem sameParts [CanonicalTable U] [LawfulTransitionTable U] (h : d.WrittenForm A)
    (hA : A.WellFormed) (hepsilon : RegularLanguages.epsilonSymbol ∉ A.alphabet)
    (hread : d.toAutomaton = .ok B) : Automaton.SameParts A B := by
  obtain ⟨es, hes, hmem⟩ := h.exists_toAutomaton_eq (U := U)
  rw [hes] at hread
  obtain ⟨hstates, halphabet, hedges, hinitial, hfinals⟩ := Automaton.parts_of_ofParts hread
  refine ⟨Std.ExtTreeSet.ext_mem fun q => ?_, halphabet.symm, fun p l q => ?_, hinitial.symm,
    Std.ExtTreeSet.ext_mem fun q => ?_⟩
  · rw [hstates, Std.ExtTreeSet.mem_toList]
  · exact (hmem (fun e he => hA.label_ne hepsilon he) _).symm.trans (hedges _).symm
  · rw [hfinals, Std.ExtTreeSet.mem_toList]

/-- A written form is read as the sound automaton with the parts that were written. -/
theorem toAutomaton_eq_ok_iff [CanonicalTable U] [LawfulTransitionTable U]
    [ExactTransitionTable U] (h : d.WrittenForm A) (hA : A.WellFormed)
    (hepsilon : RegularLanguages.epsilonSymbol ∉ A.alphabet) :
    d.toAutomaton = .ok B ↔ B.Sound ∧ Automaton.SameParts A B := by
  constructor
  · intro hread
    exact ⟨sound_of_toAutomaton hread, h.sameParts hA hepsilon hread⟩
  · rintro ⟨hB, hsame⟩
    exact h.toAutomaton_eq_ok hB hsame hepsilon

end Dictionary.WrittenForm

namespace AnyAutomaton

variable {A : AnyAutomaton}

/-- What is written out is read, as any kind, as the sound automaton of the kind with the same
parts. -/
theorem Sound.toAutomaton_eq_ok_iff (hA : A.Sound) (hepsilon : epsilonSymbol ∉ A.alphabet)
    {U : Type} [TransitionTable U] [CanonicalTable U] [LawfulTransitionTable U]
    [ExactTransitionTable U] {B : Automaton U} :
    A.toDictionary.toAutomaton = .ok B ↔ B.Sound ∧ A.HasParts B := by
  cases A with
  | dfa A | nfa A | epsilonNFA A =>
    have hwritten := Automaton.Sound.writtenForm_toDictionary hA fun _ => hepsilon
    exact hwritten.toAutomaton_eq_ok_iff hA.toWellFormed hepsilon

/-- The written form of an automaton with checked parts is read as a deterministic automaton exactly
if the automaton itself is, and as this one; as an automaton without empty moves exactly if there
are none, and as the one that looks through them; and always as the one with empty moves. -/
theorem toDictionary_reads_as_other_kinds {kind : Kind} {states finals : List State}
    {alphabet : Alphabet} {es : List Edge} {initial : State}
    (h : ofParts kind states alphabet es initial finals = .ok A) :
    (∀ D : DFA, A.toDictionary.toAutomaton = .ok D ↔ A.asDeterministic? = some D) ∧
    (∀ N : NFA, A.toDictionary.toAutomaton = .ok N ↔
      (∀ e ∈ A.edges, e.label ≠ .epsilon) ∧ A.toNFA = N) ∧
    A.toDictionary.toAutomaton = .ok A.toEpsilonNFA := by
  obtain ⟨hA, hepsilon⟩ := sound_and_epsilonSymbol_notMem_of_ofKind h
  refine ⟨fun D => ?_, fun N => ?_, ?_⟩
  · exact (hA.toAutomaton_eq_ok_iff hepsilon).trans (asDeterministic?_eq_some_iff hA).symm
  · rw [hA.toAutomaton_eq_ok_iff hepsilon]
    constructor
    · rintro ⟨hN, hparts⟩
      obtain ⟨-, -, hedges, -, -⟩ := hparts.parts_eq
      have hempty (e : Edge) (he : e ∈ A.edges) : e.label ≠ .epsilon := by
        rw [← hedges] at he
        exact ReportingTransitionTable.label_ne_epsilon (by rintro ⟨⟩) he
      exact ⟨hempty, (hasParts_toNFA hA.wellFormed hempty).unique hparts (sound_toNFA hA) hN⟩
    · rintro ⟨hempty, rfl⟩
      exact ⟨sound_toNFA hA, hasParts_toNFA hA.wellFormed hempty⟩
  · exact (hA.toAutomaton_eq_ok_iff hepsilon).mpr ⟨sound_toEpsilonNFA hA, A.hasParts_toEpsilonNFA⟩

/-- An automaton with empty moves allowed that has none, and one choice at most, can be read as any
kind; its keys have several commas and end like those of empty moves. -/
theorem toDictionary_reads_as_other_kinds_commas :
    let E : EpsilonNFA := ⟨.ofList [",", ",ε"], .ofText ",a",
      .ofTriples [(",", .symbol ',', ",ε"), (",ε", .symbol 'a', ",")], ",", .ofList [",ε"]⟩
    let N : NFA := ⟨.ofList [",", ",ε"], .ofText ",a",
      .ofTriples [(",", ',', ",ε"), (",ε", 'a', ",")], ",", .ofList [",ε"]⟩
    let D : DFA := ⟨.ofList [",", ",ε"], .ofText ",a",
      .ofTriples [(",", ',', ",ε"), (",ε", 'a', ",")], ",", .ofList [",ε"]⟩
    ofParts .epsilonNFA [",", ",ε"] (.ofText ",a") E.edges "," [",ε"] = .ok (.epsilonNFA E) ∧
    (epsilonNFA E).toDictionary.toAutomaton = .ok D ∧
    (epsilonNFA E).toDictionary.toAutomaton = .ok N ∧
    (epsilonNFA E).toDictionary.toAutomaton = .ok E := by
  intro E N D
  have hE : ofParts .epsilonNFA [",", ",ε"] (.ofText ",a") E.edges "," [",ε"] =
      .ok (.epsilonNFA E) := by decide +kernel
  obtain ⟨hdeterministic, hnondeterministic, hself⟩ := toDictionary_reads_as_other_kinds hE
  exact ⟨hE, (hdeterministic D).mpr (by decide +kernel),
    (hnondeterministic N).mpr ⟨by decide +kernel, by decide +kernel⟩, hself⟩

end AnyAutomaton

end RegularLanguages
