import Straightline.Store.Basic

/-!
# The statistics table

Measurements are shown as a boxed table under a title. A column is as wide as its widest cell; texts
stand at the left of their column and numbers at the right.
-/

set_option autoImplicit false

namespace Straightline.Statistics

/-- On which side of its column a cell stands. -/
inductive Alignment where
  | left
  | right
deriving DecidableEq, Repr

/-- A column: its heading and the side its cells stand on. -/
structure Column where
  heading : String
  alignment : Alignment
deriving DecidableEq, Repr

/-- The columns of the table. -/
def columns : List Column :=
  [⟨"PHASE", .left⟩, ⟨"ROUND", .right⟩, ⟨"PASS", .left⟩, ⟨"INSTRUCTIONS", .right⟩]

/-- The title of the table. -/
def title : String := "Pass Statistics"

/-- The cells of a measurement. -/
def cells (m : Measurement) : List String :=
  [m.phase, Nat.repr m.round, m.pass, Nat.repr m.instructions]

/-- `n` copies of a character. -/
def repeated (c : Char) (n : Nat) : String := String.ofList (List.replicate n c)

/-- A text filled up with blanks to a width. -/
def pad (alignment : Alignment) (width : Nat) (s : String) : String :=
  let fill := repeated ' ' (width - s.length)
  match alignment with
  | .left => s ++ fill
  | .right => fill ++ s

/-- The widths of the columns over some rows of cells. -/
def widths (rows : List (List String)) : List Nat :=
  rows.foldl (fun ws row => List.zipWith (fun w c => max w c.length) ws row)
    (columns.map (·.heading.length))

/-- A horizontal line. -/
def rule (ws : List Nat) : String :=
  "+" ++ String.join (ws.map fun w => repeated '-' (w + 2) ++ "+") ++ "\n"

/-- One row of cells. -/
def row (ws : List Nat) (cs : List String) : String :=
  let cell (column : Column) (wc : Nat × String) : String :=
    " " ++ pad column.alignment wc.1 wc.2 ++ " |"
  "|" ++ String.join (List.zipWith cell columns (ws.zip cs)) ++ "\n"

/-- The table of some measurements. -/
def table (ms : List Measurement) : String :=
  let rows := ms.map cells
  let ws := widths rows
  let inner := ws.foldl (fun n w => n + w + 3) 0 - 1
  "+" ++ repeated '-' inner ++ "+\n"
    ++ "| " ++ pad .left (inner - 2) title ++ " |\n"
    ++ rule ws
    ++ row ws (columns.map (·.heading))
    ++ rule ws
    ++ String.join (rows.map (row ws))
    ++ rule ws

end Straightline.Statistics
