import RegularLanguages.Text.CharacterClass

/-!
# Boxed grids

A grid of texts in a frame with rounded corners: cells are aligned to the left with a blank on both
sides, a column is as wide as its widest cell, and a line separates the first row from the rest.
-/

namespace RegularLanguages.Text

/-- The number of terminal columns a character takes. What belongs to the character before it, or is
left out by a display, takes none. -/
def columns (c : Char) : Nat :=
  if wide.contains c then 2
  else if graphemeExtending.contains c || syllableCompleting.contains c ||
      defaultIgnorable.contains c then 0
  else 1

/-- The number of terminal columns a text takes. -/
def displayWidth (s : String) : Nat := s.toList.foldl (fun n c => n + columns c) 0

/-- A text with blanks behind it up to the given width. -/
def padRight (width : Nat) (s : String) : String := s ++ "".pushn ' ' (width - displayWidth s)

/-- The width of the widest cell in each column. -/
def columnWidths (rows : List (List String)) : List Nat :=
  let columns := rows.foldl (fun n row => max n row.length) 0
  (List.range columns).map fun i =>
    rows.foldl (fun w row => max w (displayWidth (row.getD i ""))) 0

/-- A horizontal line of the frame: its left end, its crossings and its right end. -/
def rule (left crossing right : String) (widths : List Nat) : String :=
  left ++ crossing.intercalate (widths.map fun w => "".pushn '─' (w + 2)) ++ right

/-- A row of cells between the vertical lines of the frame. -/
def gridRow (widths : List Nat) (row : List String) : String :=
  "│" ++ "│".intercalate (widths.mapIdx fun i w => " " ++ padRight w (row.getD i "") ++ " ") ++ "│"

/-- A header and the rows below it, in a frame; without a line break at the end. -/
def grid (header : List String) (rows : List (List String)) : String :=
  let widths := columnWidths (header :: rows)
  let below := if rows.isEmpty then [] else rule "├" "┼" "┤" widths :: rows.map (gridRow widths)
  "\n".intercalate
    ([rule "╭" "┬" "╮" widths, gridRow widths header] ++ below ++ [rule "╰" "┴" "╯" widths])

end RegularLanguages.Text
