import RegularLanguages.Regex.Basic

/-!
# Writing with a stack

An expression is also written without a recursion over it: the pieces that are left to be written
lie on a stack, and an expression on top is taken apart into smaller ones and the characters around
and between them. A tree may then be as deep as it likes.
-/

namespace RegularLanguages

/-- What is left to be written: an expression, or characters. -/
inductive Piece where
  | node (x : Regex)
  | text (characters : List Char)

/-- The pieces that an expression is written with, from left to right. -/
def Regex.pieces : Regex → List Piece
  | literal a => [.text (spellLiteral a [])]
  | epsilon => [.text [epsilonSymbol]]
  | empty => [.text [emptyLanguageSymbol]]
  | union l r => [.text ['('], .node l, .text ['|'], .node r, .text [')']]
  | concat l r => [.text ['('], .node l, .node r, .text [')']]
  | star x => [.node x, .text ['*']]
  | plus x => [.node x, .text ['+']]
  | optional x => [.node x, .text ['?']]
  | group x => [.text ['('], .node x, .text [')']]

namespace Piece

/-- A bound on how often the top of the stack is taken until the piece has been written. -/
def effort : Piece → Nat
  | node x => 4 * x.size
  | text _ => 1

/-- The effort for all pieces on a stack. -/
def remaining : (stack : List Piece) → Nat
  | [] => 0
  | piece :: stack => piece.effort + remaining stack

/-- An expression that is taken apart leaves less to be done. -/
theorem remaining_pieces_lt (x : Regex) (stack : List Piece) :
    remaining (x.pieces ++ stack) < remaining (node x :: stack) := by
  cases x <;> simp [remaining, effort, Regex.pieces, Regex.size] <;> omega

/-- The output once all pieces have been written, the one on top of the stack first. -/
def write (output : String) : (stack : List Piece) → String
  | [] => output
  | text characters :: stack => write (output ++ String.ofList characters) stack
  | node x :: stack => write output (x.pieces ++ stack)
termination_by stack => remaining stack
decreasing_by
  · simp [remaining, effort]
  · exact remaining_pieces_lt x stack

end Piece

end RegularLanguages
