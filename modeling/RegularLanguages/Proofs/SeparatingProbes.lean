import Mathlib.Data.Set.Card
import RegularLanguages.Conversion.Engine
import RegularLanguages.Proofs.FiniteSets
import RegularLanguages.Proofs.Probes
import RegularLanguages.Proofs.WordCounts

/-!
# Disagreements found by probes

A probe word on which two automata disagree is a short word over their alphabets. The empty word is
probed in any case, also if no probe words are allowed. Where there are no more short words than
probe words are allowed, all of them are probed in ascending order, so that the first disagreement
is the least one.
-/

namespace RegularLanguages

/-- The symbols of an alphabet are listed in ascending order. -/
theorem Alphabet.ascending_toList (alphabet : Alphabet) : alphabet.toList.Pairwise (· < ·) :=
  alphabet.ordered_toList.imp compareOfLessAndEq_eq_lt.mp

namespace Word

/-- The words over an alphabet that have at most the given length. -/
def shortOver (alphabet : Alphabet) (length : Nat) : Set Word :=
  {w | (∀ a ∈ w, a ∈ alphabet) ∧ w.length ≤ length}

variable {alphabet : Alphabet} {length : Nat} {w : Word}

/-- A short word has symbols of the alphabet and is no longer than it may be. -/
theorem mem_shortOver :
    w ∈ shortOver alphabet length ↔ (∀ a ∈ w, a ∈ alphabet) ∧ w.length ≤ length := Iff.rfl

/-- The words that are listed for the symbols of an alphabet are the short words over it. -/
theorem mem_listUpTo_toList :
    w ∈ listUpTo alphabet.toList length ↔ w ∈ shortOver alphabet length := by
  simp only [mem_listUpTo, mem_shortOver, Std.ExtTreeSet.mem_toList]

/-- Short words over an alphabet are counted by the number of its symbols. -/
theorem encard_shortOver (alphabet : Alphabet) (length : Nat) :
    (shortOver alphabet length).encard = countUpTo alphabet.toList.length length := by
  have hlisted : shortOver alphabet length = (listUpTo alphabet.toList length).toFinset := by
    ext w
    rw [Finset.mem_coe, List.mem_toFinset, mem_listUpTo_toList]
  have hnodup : (listUpTo alphabet.toList length).Nodup :=
    nodup_listUpTo (FiniteSet.nodup_toList alphabet)
  rw [hlisted, Set.encard_coe_eq_coe_finsetCard, List.toFinset_card_of_nodup hnodup,
    length_listUpTo]

end Word

namespace Probe

variable {γ : Type} {generator : Generator γ} {config : EngineConfig} {alphabet : Alphabet}

/-- All short words are probed if there are no more of them than allowed. -/
theorem words_of_encard_le
    (h : (Word.shortOver alphabet config.probeLength).encard ≤ config.maxProbes) :
    words generator config alphabet = Word.listUpTo alphabet.toList config.probeLength := by
  rw [Word.encard_shortOver, Nat.cast_le] at h
  refine if_pos ?_
  rw [Word.boundedCountUpTo_eq]
  exact (Nat.min_le_right _ _).trans h

end Probe

namespace Engine

variable {δ γ : Type}

/-- With a generator that draws below the bounds it is given, a word that is found is a short word
over both alphabets on which the automata disagree. A disagreement on the empty word is found in any
case. If there are no more short words than probe words are allowed, nothing is found exactly if the
automata agree on all of them, and otherwise the least word on which they disagree is found. -/
theorem disagreements_found_by_probes (engine : Engine δ γ) (hdraws : engine.generator.Lawful)
    (A B : AnyAutomaton) :
    let short := Word.shortOver (A.alphabet ∪ B.alphabet) engine.config.probeLength
    (∀ w, engine.separate? A B = some w → w ∈ short ∧ A.accepts w ≠ B.accepts w) ∧
      (A.accepts [] ≠ B.accepts [] → engine.separate? A B = some []) ∧
      (short.encard ≤ engine.config.maxProbes →
        (engine.separate? A B = none ↔ ∀ w ∈ short, A.accepts w = B.accepts w) ∧
          ∀ w, engine.separate? A B = some w →
            Word.IsLeast (fun v => v ∈ short ∧ A.accepts v ≠ B.accepts v) w) := by
  intro short
  refine ⟨fun w hw => ?_, fun hempty => ?_, fun hall => ?_⟩
  · rw [separate?, Probe.separate?] at hw
    have hdiffer := List.find?_some hw
    have hprobe := List.mem_of_find?_eq_some hw
    exact ⟨⟨Probe.mem_alphabet_of_mem_words hprobe, Probe.length_le_of_mem_words hdraws hprobe⟩,
      bne_iff_ne.mp hdiffer⟩
  · obtain ⟨rest, hrest⟩ := Probe.exists_words_eq_cons engine.generator engine.config
      (A.alphabet ∪ B.alphabet)
    rw [separate?, Probe.separate?, hrest]
    exact List.find?_cons_of_pos (bne_iff_ne.mpr hempty)
  · have hfound : Word.FindsLeast (fun v => v ∈ short ∧ A.accepts v ≠ B.accepts v)
        (engine.separate? A B) := by
      rw [separate?, Probe.separate?, Probe.words_of_encard_le hall]
      have hascending := Alphabet.ascending_toList (A.alphabet ∪ B.alphabet)
      refine (Word.findsLeast_find? (Word.ordered_listUpTo hascending)).congr ?_
      intro v
      rw [Word.mem_listUpTo_toList, bne_iff_ne]
    refine ⟨?_, hfound.isLeast⟩
    simp only [hfound.eq_none_iff, not_and, not_not]

/-- Seven probe words are as many as there are short words over two symbols, and the least word on
which two automata disagree is found among them. With one less, words are drawn, and the first one
on which they disagree need not be the least. From an automaton that accepts nothing one is told
apart by the empty word, although no probe words are allowed. -/
theorem disagreements_found_by_seven_six_and_no_probes :
    let L : DFA := ⟨.ofList ["p"], .ofText "a", .ofTriples [("p", 'a', "p")], "p", .ofList ["p"]⟩
    let R : DFA := ⟨.ofList ["p", "q"], .ofText "ab",
      .ofTriples [("p", 'a', "p"), ("p", 'b', "q")], "p", .ofList ["p", "q"]⟩
    let S : DFA := ⟨.ofList ["p"], .ofText "ab", .ofTriples [], "p", .ofList []⟩
    let allowing (n : Nat) : Engine :=
      .new { EngineConfig.standard with probeLength := 2, maxProbes := n, probeSeed := 2 }
    let short := Word.shortOver ((L : AnyAutomaton).alphabet ∪ (R : AnyAutomaton).alphabet) 2
    Wyrand.generator.Lawful ∧ short.encard ≤ 7 ∧ (allowing 7).separate? L R = some ['b'] ∧
      Word.IsLeast (fun v => v ∈ short ∧ L.accepts v ≠ R.accepts v) ['b'] ∧
      (allowing 6).separate? L R = some ['a', 'b'] ∧
      ['a', 'b'] ∈ short ∧ L.accepts ['a', 'b'] ≠ R.accepts ['a', 'b'] ∧
      L.accepts [] ≠ S.accepts [] ∧ (allowing 0).separate? L S = some [] := by
  intro L R S allowing short
  have hshort : short.encard ≤ 7 := by
    rw [Word.encard_shortOver]
    exact Nat.cast_le.mpr (by decide +kernel : Word.countUpTo _ 2 ≤ 7)
  have hseven : (allowing 7).separate? L R = some ['b'] := by decide +kernel
  have hsix : (allowing 6).separate? L R = some ['a', 'b'] := by decide +kernel
  have hempty : L.accepts [] ≠ S.accepts [] := by decide +kernel
  obtain ⟨-, -, hleast⟩ := disagreements_found_by_probes (allowing 7) Wyrand.lawful_draws L R
  obtain ⟨hfound, -, -⟩ := disagreements_found_by_probes (allowing 6) Wyrand.lawful_draws L R
  obtain ⟨-, hfirst, -⟩ := disagreements_found_by_probes (allowing 0) Wyrand.lawful_draws L S
  exact ⟨Wyrand.lawful_draws, hshort, hseven, (hleast hshort).2 _ hseven, hsix, (hfound _ hsix).1,
    (hfound _ hsix).2, hempty, hfirst hempty⟩

end Engine

end RegularLanguages
