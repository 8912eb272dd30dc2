import RegularLanguages.Pattern.Lexer

/-!
# From tokens to expressions

An expression is a union of terms, a term a concatenation of factors, and a factor an operand with
postfix operators behind it; an operand is a leaf or an expression in parentheses. Tokens are read
once, from left to right. What has been read is a stack of frames, one for each parenthesis that
is still open, and a token changes the uppermost frame, opens one or closes one.
-/

namespace RegularLanguages.Pattern

/-- Joins what has been read so far with what follows it. -/
def joinLeft (join : Regex → Regex → Regex) : Option Regex → Regex → Regex
  | none, x => x
  | some before, x => join before x

/-- An expression that has been read up to some token. -/
structure Frame where
  /-- The union of the terms that are complete. -/
  alternatives : Option Regex
  /-- The concatenation of the complete factors of the last term. -/
  factors : Option Regex
  /-- The last factor, to which a postfix operator applies. -/
  operand : Option Regex
deriving DecidableEq, Repr

namespace Frame

/-- A frame of which nothing has been read. -/
def blank : Frame := ⟨none, none, none⟩

/-- The last term, if it has a factor. -/
def term? (frame : Frame) : Option Regex := frame.operand.map (joinLeft .concat frame.factors)

/-- The whole expression, if its last term has a factor. -/
def expression? (frame : Frame) : Option Regex :=
  frame.term?.map (joinLeft .union frame.alternatives)

/-- One more factor in the last term. -/
def push (frame : Frame) (x : Regex) : Frame := ⟨frame.alternatives, frame.term?, some x⟩

end Frame

/-- What has been read of a pattern: the innermost expression, and around it those that wait for
the closing of a parenthesis, each with the byte at which that parenthesis stands. -/
structure Reading where
  frame : Frame
  enclosing : List (Nat × Frame)
deriving DecidableEq, Repr

namespace Reading

/-- Nothing has been read. -/
def start : Reading := ⟨.blank, []⟩

/-- Adds an operand to the innermost expression. -/
def operand (reading : Reading) (x : Regex) : Reading :=
  { reading with frame := reading.frame.push x }

/-- Puts a postfix operator behind the last factor. -/
def postfixOperator (reading : Reading) (token : Token) (operator : Regex → Regex) :
    Except PatternError Reading :=
  match reading.frame.operand with
  | some x => .ok { reading with frame := { reading.frame with operand := some (operator x) } }
  | none => .error (.grammar token.position (.strayOperator token.kind))

/-- Begins another term of the innermost expression. -/
def alternative (reading : Reading) (position : Nat) : Except PatternError Reading :=
  match reading.frame.expression? with
  | some x => .ok { reading with frame := ⟨some x, none, none⟩ }
  | none => .error (.grammar position .alternativeMissing)

/-- Opens a group. -/
def openGroup (rules : Rules) (reading : Reading) (position : Nat) : Except PatternError Reading :=
  if reading.enclosing.length + 1 > rules.maxDepth then
    .error (.grammar position (.nestedTooDeep rules.maxDepth))
  else .ok ⟨.blank, (position, reading.frame) :: reading.enclosing⟩

/-- Closes the innermost group, which becomes an operand of the expression around it. -/
def closeGroup (reading : Reading) (position : Nat) : Except PatternError Reading :=
  match reading.frame.expression?, reading.enclosing with
  | some x, (_, outer) :: enclosing => .ok ⟨outer.push (.group x), enclosing⟩
  | some _, [] => .error (.grammar position .unopenedGroup)
  | none, [] => .error (.grammar position .strayClosing)
  | none, _ :: _ =>
    if reading.frame = .blank then .error (.grammar position .emptyGroup)
    else .error (.grammar position .strayClosing)

/-- Reads one token. A class stands for the union of its members, in ascending order. -/
def read (rules : Rules) (reading : Reading) (token : Token) : Except PatternError Reading :=
  match token.kind with
  | .literal a => .ok (reading.operand (.literal a))
  | .symbolClass name =>
    .ok (reading.operand (.ofSymbols ((rules.members? name).getD ∅).toList))
  | .epsilon => .ok (reading.operand .epsilon)
  | .empty => .ok (reading.operand .empty)
  | .star => reading.postfixOperator token .star
  | .plus => reading.postfixOperator token .plus
  | .optional => reading.postfixOperator token .optional
  | .union => reading.alternative token.position
  | .opening => reading.openGroup rules token.position
  | .closing => reading.closeGroup token.position

/-- Reads tokens until one is at fault. -/
def readAll (rules : Rules) : Reading → List Token → Except PatternError Reading
  | reading, [] => .ok reading
  | reading, token :: tokens =>
    match reading.read rules token with
    | .error e => .error e
    | .ok reading => readAll rules reading tokens

/-- The expression that has been read when the pattern ends at the given byte. -/
def finish (reading : Reading) (position : Nat) : Except PatternError Regex :=
  match reading.frame.expression?, reading.enclosing with
  | none, _ => .error (.grammar position .operandExpected)
  | some _, (opened, _) :: _ => .error (.grammar opened .unclosedGroup)
  | some x, [] => .ok x

end Reading

/-- The expression of a pattern. Of several faults the first is reported, so an error in the order
of tokens wins over a character further on that is no token. -/
def parse (rules : Rules) (pattern : String) : Except PatternError Regex :=
  if pattern.isEmpty then .error (.lexical 0 .emptyPattern)
  else
    let lexed := Lexed.ofText rules pattern
    match Reading.start.readAll rules lexed.tokens, lexed.error with
    | .error e, _ => .error e
    | .ok _, some e => .error e
    | .ok reading, none => reading.finish pattern.utf8ByteSize

end RegularLanguages.Pattern
