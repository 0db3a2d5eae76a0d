/-! A fixed grid of characters and the texts stamped onto it. A stamp lies in one row and is clipped
at the right edge; a row outside the grid takes nothing. Proved: each cell after a stamp holds the
stamp's character there, if the stamp has one, and otherwise what it held before. -/

namespace ArithTree.Drawing

/-- The columns of a canvas. -/
abbrev width : Nat := 80

/-- The rows of a canvas. -/
abbrev height : Nat := 16

structure Canvas where
  rows : Vector (Vector Char width) height
  deriving DecidableEq

/-- A text that starts at a cell and runs to the right. -/
structure Stamp where
  row : Nat
  col : Nat
  text : String
  deriving DecidableEq

/-- The character that a stamp puts into a column of its row. -/
def Stamp.glyph? (s : Stamp) (col : Nat) : Option Char :=
  if s.col ≤ col then s.text.toList[col - s.col]? else none

namespace Canvas

def blank : Canvas := ⟨Vector.replicate height (Vector.replicate width ' ')⟩

def cell (c : Canvas) (row : Fin height) (col : Fin width) : Char := c.rows[row][col]

def stamp (c : Canvas) (s : Stamp) : Canvas :=
  ⟨c.rows.mapFinIdx fun row cells _ =>
    if row = s.row then cells.mapFinIdx fun col old _ => (s.glyph? col).getD old else cells⟩

/-- The stamps in order, each over the ones before it. -/
def stampAll (c : Canvas) (stamps : List Stamp) : Canvas := stamps.foldl stamp c

/-- One text a row, from the top. -/
def lines (c : Canvas) : List String := c.rows.toList.map fun cells => String.ofList cells.toList

@[simp] theorem cell_blank (row : Fin height) (col : Fin width) : blank.cell row col = ' ' := by
  simp [blank, cell]

theorem cell_stamp (c : Canvas) (s : Stamp) (row : Fin height) (col : Fin width) :
    (c.stamp s).cell row col =
      if row.val = s.row then (s.glyph? col).getD (c.cell row col) else c.cell row col := by
  by_cases h : row.val = s.row <;> simp [stamp, cell, h]

@[simp] theorem stampAll_nil (c : Canvas) : c.stampAll [] = c := rfl

@[simp] theorem stampAll_cons (c : Canvas) (s : Stamp) (stamps : List Stamp) :
    c.stampAll (s :: stamps) = (c.stamp s).stampAll stamps := rfl

@[simp] theorem length_lines (c : Canvas) : c.lines.length = height := by
  simp [lines]

end Canvas

end ArithTree.Drawing
