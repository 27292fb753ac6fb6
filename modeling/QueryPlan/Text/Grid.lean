import QueryPlan.Text.Width

/-!
Tables with a border. Every column is as wide as its widest line, cells are
aligned to the left between single blanks, and a cell with line breaks takes
several lines. A double rule stands under the titles, a single one under each row.
-/

namespace QueryPlan.Text

def onFirst (c : Char) : List (List Char) → List (List Char)
  | [] => [[c]]
  | l :: ls => (c :: l) :: ls

/-- The lines of a text. A break ends a line, with or without a carriage return
before it, and what follows the last break is a line only if it is not empty. -/
def splitLines : List Char → List (List Char)
  | [] => []
  | '\r' :: '\n' :: cs => [] :: splitLines cs
  | '\n' :: cs => [] :: splitLines cs
  | c :: cs => onFirst c (splitLines cs)

def lines (s : String) : List String :=
  (splitLines s.toList).map String.ofList

namespace Grid

abbrev Row := List (List String)

def cellWidth (cell : List String) : Nat :=
  (cell.map width).foldl max 0

def columnWidths (rows : List Row) : List Nat :=
  rows.foldl (fun ws row => List.zipWith max ws (row.map cellWidth))
    ((rows.headD []).map fun _ => 0)

def rule (fill : Char) (ws : List Nat) : String :=
  String.join (ws.map fun w => "+" ++ String.ofList (List.replicate (w + 2) fill)) ++ "+\n"

def padded (w : Nat) (s : String) : String :=
  s ++ String.ofList (List.replicate (w - width s) ' ')

/-- One line across the cells of a row; a cell that has no such line is blank there. -/
def line (ws : List Nat) (row : Row) (i : Nat) : String :=
  String.join (List.zipWith (fun w cell => "| " ++ padded w (cell[i]?.getD "") ++ " ") ws row)
    ++ "|\n"

/-- A row takes one line even if all its cells are empty. -/
def height (row : Row) : Nat :=
  (row.map List.length).foldl max 1

def rowText (ws : List Nat) (row : Row) : String :=
  String.join ((List.range (height row)).map (line ws row))

def render (titles : List String) (rows : List (List String)) : String :=
  let titles := titles.map lines
  let rows := rows.map fun row => row.map lines
  let ws := columnWidths (titles :: rows)
  rule '-' ws ++ rowText ws titles ++ rule '=' ws ++
    String.join (rows.map fun row => rowText ws row ++ rule '-' ws)

end Grid
end QueryPlan.Text
