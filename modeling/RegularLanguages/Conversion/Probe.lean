import RegularLanguages.Automaton.Any
import RegularLanguages.Conversion.Config
import RegularLanguages.Random.Draws

/-!
# Probe words

Two automata are compared on probe words: all words up to some length if there are not too many of
them, and else the empty word and random words of at most that length.
-/

namespace RegularLanguages

namespace Probe

section Draws

variable {γ : Type} (draws : Draws γ)

/-- A word of the given length whose symbols are drawn from a list. A position beyond the list,
which no generator should draw, gives no symbol. -/
def drawSymbols (symbols : List Symbol) : (length : Nat) → StateM γ Word
  | 0 => pure []
  | length + 1 => do
    let i ← draws.below symbols.length
    let rest ← drawSymbols symbols length
    return symbols[i]?.toList ++ rest

/-- Words of at most the given length whose symbols are drawn from a list. -/
def drawWords (symbols : List Symbol) (length : Nat) : (count : Nat) → StateM γ (List Word)
  | 0 => pure []
  | count + 1 => do
    let n ← draws.below (length + 1)
    let word ← drawSymbols draws symbols n
    let rest ← drawWords symbols length count
    return word :: rest

end Draws

variable {γ : Type} (generator : Generator γ) (config : EngineConfig)

/-- The empty word and random words, as many as are allowed in all but one at least. -/
def sample (symbols : List Symbol) : List Word :=
  if symbols.isEmpty then [[]]
  else
    let drawn := drawWords generator.toDraws symbols config.probeLength (config.maxProbes - 1)
    [] :: (drawn (generator.seeded config.probeSeed)).1

/-- The words over an alphabet on which automata are compared. -/
def words (alphabet : Alphabet) : List Word :=
  let symbols := alphabet.toList
  if Word.boundedCountUpTo symbols.length config.probeLength ≤ config.maxProbes then
    Word.listUpTo symbols config.probeLength
  else sample generator config symbols

/-- The first probe word over the alphabets of two automata on which they disagree. -/
def separate? (a b : AnyAutomaton) : Option Word :=
  (words generator config (a.alphabet ∪ b.alphabet)).find? fun w => a.accepts w != b.accepts w

/-- The first probe word over the alphabet of the source on which the target does not do as the
source does, or as it does not if the target is to be its complement. -/
def violation? (source target : AnyAutomaton) (negated : Bool) : Option Word :=
  (words generator config source.alphabet).find? fun w =>
    (source.accepts w != target.accepts w) != negated

end Probe

end RegularLanguages
