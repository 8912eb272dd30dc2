import RegularLanguages.Alphabet

/-!
# Words and their enumeration

Words are lists of symbols, compared first by length and then symbol by symbol. The words over a
list of symbols are numbered in this order: with `k` symbols, the `n`-th word is the numeral of `n`
in the bijective system of base `k`. So any part of the enumeration is found without the words
before it, and `countUpTo` says how many words have at most a given length.
-/

namespace RegularLanguages

/-- A finite sequence of symbols. -/
abbrev Word := List Symbol

namespace Word

/-- The word spelled by a text. -/
def ofText (text : String) : Word := text.toList

/-- The text that spells a word. -/
def text (word : Word) : String := String.ofList word

/-- Shorter words first, words of one length by the first symbol in which they differ. -/
def lengthLex : Word → Word → Ordering := compareLex (compareOn List.length) compare

/-- Puts the numeral of `n`, whose digits are the symbols, in front of `suffix`. -/
def numeral? (symbols : List Symbol) (n : Nat) (suffix : Word) : Option Word :=
  match n with
  | 0 => some suffix
  | n + 1 =>
    match symbols[n % symbols.length]? with
    | none => none
    | some a => numeral? symbols (n / symbols.length) (a :: suffix)
termination_by n
decreasing_by exact Nat.lt_succ_of_le (Nat.div_le_self _ _)

/-- The word with number `n` in the enumeration of all words over `symbols`. Symbols that are
listed twice count twice; without symbols there is only the empty word. -/
def ofIndex? (symbols : List Symbol) (n : Nat) : Option Word := numeral? symbols n []

/-- The number of words of length at most `length` over `size` symbols. -/
def countUpTo (size : Nat) : (length : Nat) → Nat
  | 0 => 1
  | length + 1 => 1 + size * countUpTo size length

/-- The largest number that is told apart when words are only counted. -/
def countLimit : Nat := Nat.pow 2 64 - 1

/-- Counts the words that are longer by up to `more` symbols than those counted so far, up to the
limit. Once the count stays the same it stays so for good. -/
def countMore (size : Nat) : (more count : Nat) → Nat
  | 0, count => count
  | more + 1, count =>
    let longer := min countLimit (1 + size * count)
    if longer = count then count else countMore size more longer

/-- The number of words of length at most `length` over `size` symbols, or the limit if there are
more. A single symbol has one word of each length. -/
def boundedCountUpTo (size length : Nat) : Nat :=
  if size = 1 then min countLimit (length + 1) else countMore size length 1

/-- All words of length at most `length`, in the order of their numbers. -/
def listUpTo (symbols : List Symbol) (length : Nat) : List Word :=
  if symbols.isEmpty then [[]]
  else (List.range (countUpTo symbols.length length)).filterMap (ofIndex? symbols)

/-- How many of `take` words there can be: without symbols there is no more than one. -/
def available (symbols : List Symbol) (take : Nat) : Nat :=
  if symbols.isEmpty then min take 1 else take

/-- The words with the `take` numbers from `skip` on. -/
def slice (symbols : List Symbol) (skip take : Nat) : List Word :=
  (List.range' skip (available symbols take)).filterMap (ofIndex? symbols)

end Word

end RegularLanguages
