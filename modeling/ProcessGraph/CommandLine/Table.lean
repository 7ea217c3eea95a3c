/-!
# Tables

Writes a table with box-drawing lines. The title stands over the middle of the table, a heavy box
is around the header, and every column is as wide as its longest cell, with a blank on both sides.

Cells are taken as they are given: a character is one column wide, brackets in a cell are no markup,
and the console is wide enough for the table, so that nothing is folded.
-/

set_option autoImplicit false

namespace ProcessGraph.CommandLine

/-- A title, a header, and rows with as many cells as the header has. -/
structure Table where
  title : String
  header : List String
  rows : List (List String)
deriving DecidableEq, Inhabited

/-- A horizontal line: its left end, the line itself, where it meets the lines between columns, and
its right end. -/
structure Border where
  left : String
  line : Char
  middle : String
  right : String
deriving DecidableEq, Inhabited

namespace Table

def topBorder : Border := ⟨"┏", '━', "┳", "┓"⟩

def headerBorder : Border := ⟨"┡", '━', "╇", "┩"⟩

def bottomBorder : Border := ⟨"└", '─', "┴", "┘"⟩

def headerBar : String := "┃"

def rowBar : String := "│"

/-- A text of `n` blanks. -/
def blanks (n : Nat) : String := String.ofList (List.replicate n ' ')

/-- A text with blanks behind it, up to a width. -/
def pad (width : Nat) (s : String) : String := s ++ blanks (width - s.length)

/-- A text in the middle of a width; an odd blank goes behind it. -/
def centre (width : Nat) (s : String) : String :=
  pad width (blanks ((width - s.length) / 2) ++ s)

/-- The width of each column. -/
def widths (t : Table) : List Nat :=
  t.rows.foldl (fun ws row => List.zipWith max ws (row.map String.length))
    (t.header.map String.length)

/-- The width of a table with columns of the given widths: each has a blank on both sides and a line
behind it, and one line is before the first. -/
def totalWidth (ws : List Nat) : Nat := ws.foldl (fun n w => n + w + 3) 1

def ruleLine (b : Border) (ws : List Nat) : String :=
  b.left ++ b.middle.intercalate (ws.map fun w => String.ofList (List.replicate (w + 2) b.line)) ++
    b.right

def rowLine (bar : String) (ws : List Nat) (cells : List String) : String :=
  bar ++ bar.intercalate (List.zipWith (fun w cell => " " ++ pad w cell ++ " ") ws cells) ++ bar

/-- The lines of a table from top to bottom. -/
def lines (t : Table) : List String :=
  let ws := t.widths
  [centre (totalWidth ws) t.title, ruleLine topBorder ws, rowLine headerBar ws t.header,
    ruleLine headerBorder ws] ++ t.rows.map (rowLine rowBar ws) ++ [ruleLine bottomBorder ws]

/-- The text of a table; every line ends in a line break. -/
def text (t : Table) : String := String.join (t.lines.map (· ++ "\n"))

end Table

end ProcessGraph.CommandLine
