import RegularLanguages.Conversion.Probe
import RegularLanguages.Proofs.Draws
import RegularLanguages.Proofs.Enumerations

/-!
# Probe words

Listed and drawn probe words alike have only symbols of the alphabet they are made for, whatever is
drawn, and are no longer than they may be if lengths are drawn below their bound. The first one is
empty. Therefore no probe word speaks against a target that does what it should on the words over
the alphabet.
-/

namespace RegularLanguages.Probe

open RegularLanguages.Random (Always)

variable {γ : Type} {draws : Draws γ} {generator : Generator γ} {config : EngineConfig}
  {alphabet : Alphabet} {symbols : List Symbol} {length : Nat} {w : Word}

/-- A drawn word has symbols of the list, and no more than asked for. -/
theorem always_drawSymbols :
    Always (drawSymbols draws symbols length) fun w =>
      (∀ a ∈ w, a ∈ symbols) ∧ w.length ≤ length := by
  induction length with
  | zero => exact .pure ⟨fun a ha => absurd ha List.not_mem_nil, Nat.le_refl 0⟩
  | succ length ih =>
    refine .bind (.trivial _) fun i _ => .bind ih fun rest hrest => .pure ?_
    obtain ⟨hsymbols, hlength⟩ := hrest
    constructor
    · intro a ha
      rcases List.mem_append.mp ha with ha | ha
      · exact List.mem_of_getElem? (Option.mem_toList.mp ha)
      · exact hsymbols a ha
    · have hone : symbols[i]?.toList.length ≤ 1 := Option.length_toList_le
      rw [List.length_append]
      omega

/-- All drawn words have symbols of the list, and no more than some number that can be drawn for
the length. -/
theorem always_drawWords {drawn : Nat → Prop} {count : Nat}
    (hbelow : Always (draws.below (length + 1)) drawn) :
    Always (drawWords draws symbols length count) fun words =>
      ∀ w ∈ words, (∀ a ∈ w, a ∈ symbols) ∧ ∃ n, drawn n ∧ w.length ≤ n := by
  induction count with
  | zero => exact .pure fun w hw => absurd hw List.not_mem_nil
  | succ count ih =>
    refine .bind hbelow fun n hn => .bind always_drawSymbols fun word hword => .bind ih
      fun rest hrest => .pure fun w hw => ?_
    rcases List.mem_cons.mp hw with rfl | hw
    · exact ⟨hword.1, n, hn, hword.2⟩
    · exact hrest w hw

/-- A word in a sample is the empty word or one of the words that are drawn. -/
theorem eq_nil_or_mem_drawWords_of_mem_sample (h : w ∈ sample generator config symbols) :
    w = [] ∨ ∃ count g,
      w ∈ (drawWords generator.toDraws symbols config.probeLength count g).1 := by
  unfold sample at h
  split at h
  · exact .inl (List.mem_singleton.mp h)
  · exact (List.mem_cons.mp h).imp_right fun hdrawn => ⟨_, _, hdrawn⟩

/-- Words in a sample have symbols of the list, whatever is drawn. -/
theorem mem_symbols_of_mem_sample (h : w ∈ sample generator config symbols) :
    ∀ a ∈ w, a ∈ symbols := by
  rcases eq_nil_or_mem_drawWords_of_mem_sample h with rfl | ⟨count, g, hdrawn⟩
  · exact fun a ha => absurd ha List.not_mem_nil
  · exact (always_drawWords (.trivial _) g w hdrawn).1

/-- Words in a sample are no longer than they may be if lengths are drawn below their bound. -/
theorem length_le_of_mem_sample (hdraws : generator.Lawful)
    (h : w ∈ sample generator config symbols) : w.length ≤ config.probeLength := by
  rcases eq_nil_or_mem_drawWords_of_mem_sample h with rfl | ⟨count, g, hdrawn⟩
  · exact Nat.zero_le _
  · have hbelow : Always (generator.below (config.probeLength + 1)) (· < config.probeLength + 1) :=
      fun g => hdraws _ g (Nat.succ_pos _)
    obtain ⟨-, n, hn, hlength⟩ := always_drawWords hbelow g w hdrawn
    exact hlength.trans (Nat.lt_succ_iff.mp hn)

/-- A probe word is a listed word, which is a word over the alphabet that is no longer than it may
be, or one of a sample. -/
theorem mem_words_cases (h : w ∈ words generator config alphabet) :
    ((∀ a ∈ w, a ∈ alphabet.toList) ∧ w.length ≤ config.probeLength) ∨
      w ∈ sample generator config alphabet.toList := by
  unfold words at h
  dsimp only at h
  split at h
  · exact .inl (Word.mem_listUpTo.mp h)
  · exact .inr h

/-- Probe words are words over the alphabet, whatever is drawn. -/
theorem mem_alphabet_of_mem_words (h : w ∈ words generator config alphabet) :
    ∀ a ∈ w, a ∈ alphabet := by
  have hsymbols : ∀ a ∈ w, a ∈ alphabet.toList :=
    (mem_words_cases h).elim And.left mem_symbols_of_mem_sample
  exact fun a ha => Std.ExtTreeSet.mem_toList.mp (hsymbols a ha)

/-- Probe words are no longer than they may be if lengths are drawn below their bound. -/
theorem length_le_of_mem_words (hdraws : generator.Lawful)
    (h : w ∈ words generator config alphabet) : w.length ≤ config.probeLength :=
  (mem_words_cases h).elim And.right (length_le_of_mem_sample hdraws)

/-- The first probe word is empty. -/
theorem exists_words_eq_cons (generator : Generator γ) (config : EngineConfig)
    (alphabet : Alphabet) : ∃ rest, words generator config alphabet = [] :: rest := by
  unfold words sample
  dsimp only
  split
  · exact Word.exists_listUpTo_eq_cons _ _
  · split
    · exact ⟨[], rfl⟩
    · exact ⟨_, rfl⟩

/-- No probe word speaks against a target that does what it should over the alphabet. -/
theorem violation?_eq_none {source target : AnyAutomaton} {negated : Bool}
    (h : ∀ w : Word, (∀ a ∈ w, a ∈ source.alphabet) →
      (source.accepts w != target.accepts w) = negated) :
    violation? generator config source target negated = none := by
  rw [violation?, List.find?_eq_none]
  intro w hw
  rw [h w (mem_alphabet_of_mem_words hw)]
  simp

end RegularLanguages.Probe
