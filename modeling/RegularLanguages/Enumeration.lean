import RegularLanguages.Word

/-!
# Enumerations

The words over a list of symbols, one after another. An enumeration knows the word it yields next by
the positions of its symbols in the list, and goes on from there like a counter: the last position
moves on; if there is none behind it in the list, it returns to the front, and the position before
it moves on in its place. When all positions have returned to the front, the next word is longer.
-/

namespace RegularLanguages

/-- An enumeration of the words over `symbols`, at the word it yields next or at its end. -/
structure Enumeration (symbols : List Symbol) where
  next? : Option (List (Fin symbols.length))

namespace Enumeration

variable {symbols : List Symbol} {size : Nat}

/-- Moves on the last position that is not the last one in the list; those behind it return to the
front. The second value says whether all positions returned to the front. -/
def advance : List (Fin size) → List (Fin size) × Bool
  | [] => ([], true)
  | i :: positions =>
    match advance positions with
    | (rest, false) => (i :: rest, false)
    | (rest, true) =>
      if h : i.val + 1 < size then (⟨i.val + 1, h⟩ :: rest, false) else (⟨0, i.pos⟩ :: rest, true)

/-- The positions of the word that comes after a word: all words get longer when the positions have
returned to the front. Without symbols no other word comes after the empty one. -/
def following? (positions : List (Fin size)) : Option (List (Fin size)) :=
  if h : 0 < size then
    match advance positions with
    | (moved, false) => some moved
    | (_, true) => some (List.replicate (positions.length + 1) ⟨0, h⟩)
  else none

/-- The word whose symbols are at the given positions. -/
def wordAt (positions : List (Fin symbols.length)) : Word := positions.map symbols.get

/-- The enumeration that begins with the empty word. -/
def start (symbols : List Symbol) : Enumeration symbols := ⟨some []⟩

/-- The next word and the enumeration after it, unless it has ended. -/
def yield? (enumeration : Enumeration symbols) : Option (Word × Enumeration symbols) :=
  enumeration.next?.map fun positions => (wordAt positions, ⟨following? positions⟩)

/-- The next words, as many as asked for if there are that many. -/
def take (enumeration : Enumeration symbols) : (count : Nat) → List Word
  | 0 => []
  | count + 1 =>
    match enumeration.yield? with
    | none => []
    | some (word, rest) => word :: rest.take count

/-- The word that is yielded after `n` others. -/
def nth? (enumeration : Enumeration symbols) (n : Nat) : Option Word :=
  (enumeration.take (n + 1))[n]?

/-- The next words up to the first one that is too long, among as many as asked for. -/
def takeUpTo (enumeration : Enumeration symbols) (length count : Nat) : List Word :=
  (enumeration.take count).takeWhile fun word => word.length ≤ length

end Enumeration

end RegularLanguages
