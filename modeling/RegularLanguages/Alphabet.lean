import Std.Data.ExtTreeSet

/-!
# Symbols, labels and alphabets

A symbol is a character, an alphabet a finite set of symbols, and a label either a symbol or the
empty move. Sets are extensional search trees: two alphabets are equal exactly when they have the
same symbols, and `toList` lists them in ascending order of their code points.
-/

namespace RegularLanguages

/-- A letter of a word. -/
abbrev Symbol := Char

/-- The character that stands for the empty word wherever labels and patterns are written out. -/
def epsilonSymbol : Symbol := 'ε'

/-- What a transition reads: nothing, or one symbol. -/
inductive Label where
  | epsilon
  | symbol (a : Symbol)
deriving DecidableEq, Repr

namespace Label

/-- The symbol that is read, if there is one. -/
def symbol? : Label → Option Symbol
  | epsilon => none
  | symbol a => some a

/-- Whether the label reads nothing. -/
def isEpsilon : Label → Bool
  | epsilon => true
  | symbol _ => false

/-- The label as it is written in tables and descriptions. -/
def text : Label → String
  | epsilon => epsilonSymbol.toString
  | symbol a => a.toString

/-- Labels that read the same symbol, or both none, are equal, so that orders on optional symbols
order labels. -/
theorem symbol?_injective {l m : Label} (h : l.symbol? = m.symbol?) : l = m := by
  cases l <;> cases m <;> simp_all [symbol?]

/-- The empty move comes before every symbol; symbols are in order of their code points. -/
instance : Ord Label := ⟨compareOn symbol?⟩

instance : Std.TransOrd Label := inferInstanceAs (Std.TransCmp (compareOn symbol?))

instance : Std.LawfulEqOrd Label where
  eq_of_compare h := symbol?_injective (Std.LawfulEqOrd.eq_of_compare h)

end Label

/-- A finite set of symbols. -/
abbrev Alphabet := Std.ExtTreeSet Symbol

namespace Alphabet

/-- The alphabet of the given symbols; their order and repetitions do not matter. -/
def ofList (symbols : List Symbol) : Alphabet := Std.ExtTreeSet.ofList symbols

/-- The alphabet of the characters of a text. -/
def ofText (text : String) : Alphabet := ofList text.toList

/-- The alphabet of a list has the symbols of the list. -/
@[simp] theorem mem_ofList {symbols : List Symbol} {a : Symbol} :
    a ∈ ofList symbols ↔ a ∈ symbols := by
  simp [ofList, Std.ExtTreeSet.mem_ofList]

/-- The largest size for which the small letters suffice. -/
def letterCount : Nat := 26

/-- The first `n` small letters, or nothing if there are not that many. -/
def ofSize? (n : Nat) : Option Alphabet :=
  if n ≤ letterCount then some (ofList ((List.range n).map fun i => Char.ofNat ('a'.toNat + i)))
  else none

/-- The symbols between braces, in ascending order. -/
def text (alphabet : Alphabet) : String :=
  "\x7b" ++ ", ".intercalate (alphabet.toList.map Char.toString) ++ "\x7d"

/-- Alphabets are ordered like the ascending lists of their symbols. -/
def order : Alphabet → Alphabet → Ordering := compareOn Std.ExtTreeSet.toList

end Alphabet

end RegularLanguages
