import ArithTree.Drawing.Canvas
import ArithTree.Expr

/-! Where the parts of a tree go on a canvas. Every level takes three rows: the labels, the bars to
the operands, and the ends of the bars. The columns between two operands halve from level to level.
A text that does not fit the columns of its level is cut to one mark, and so is everything below the
deepest level. -/

namespace ArithTree.Drawing

/-- The deepest level that is drawn; the root is on level 0. -/
def deepestLevel : Nat := 4

def rootCol : Nat := width / 2 - 1

/-- The columns that a node of a level has for itself. -/
def spread (level : Nat) : Nat := width >>> level

def labelRow (level : Nat) : Nat := 3 * level + 1

/-- The row of the bar below a node. -/
def barRow (level : Nat) : Nat := 3 * level + 2

/-- The row of the two ends of that bar. -/
def endRow (level : Nat) : Nat := 3 * level + 3

/-- The column of a left operand on the given level. -/
def leftCol (level parentCol : Nat) : Nat := parentCol - (spread level + 1) / 2

/-- The column of a right operand on the given level. -/
def rightCol (level parentCol : Nat) : Nat := parentCol + spread level / 2

/-- A text in its place, or the mark of one that was cut. -/
inductive Mark where
  | text (stamp : Stamp)
  | cut (row col : Nat)
  deriving DecidableEq

namespace Mark

def stamp : Mark → Stamp
  | text s => s
  | cut row col => ⟨row, col, "X"⟩

def isCut : Mark → Bool
  | text _ => false
  | cut .. => true

/-- The text where it ends on the canvas and leaves a column of `room` free; otherwise the cut. -/
def fitted (row col room : Nat) (text : String) : Mark :=
  if col + text.length ≤ width ∧ text.length < room then .text ⟨row, col, text⟩ else .cut row col

end Mark

/-- What follows the label of an evaluated operator. -/
def caption (overflowed : Bool) (result : Int32) : String :=
  if overflowed && result == Word32.ceiling then "(BIG)" else "(" ++ Numeral.text result ++ ")"

def labelMark (level col : Nat) (e : Expr) : Mark :=
  .fitted (labelRow level) col (spread level) e.label

/-- The caption of an operator, two columns right of its label, in an evaluated tree only. -/
def captionMarks (evaluated overflowed : Bool) (level col : Nat) (result : Int32) : List Mark :=
  if evaluated then
    [.fitted (labelRow level) (col + 2) (spread level - 2) (caption overflowed result)]
  else []

/-- The bar below an operator, from one operand to the other. -/
def barMarks (level col : Nat) : List Mark :=
  [.text ⟨barRow level, leftCol (level + 1) col + 1,
      String.ofList (List.replicate (spread (level + 1) - 1) '_')⟩,
    .text ⟨barRow level, col, "|"⟩]

/-- What is drawn of an operand below the deepest level: a cut under its operator. -/
def cutOperandMarks (level col : Nat) : List Mark :=
  [.text ⟨barRow level, col, "|"⟩, .cut (endRow level) col]

/-- The marks of the tree at a column of a level, in the order in which they are stamped. -/
def marks (evaluated overflowed : Bool) (level col : Nat) : Expr → List Mark
  | .literal v => [labelMark level col (.literal v)]
  | .binary op left right result =>
    labelMark level col (.binary op left right result) ::
      captionMarks evaluated overflowed level col result ++
      if level < deepestLevel then
        barMarks level col ++
          .text ⟨endRow level, leftCol (level + 1) col, "|"⟩ ::
          marks evaluated overflowed (level + 1) (leftCol (level + 1) col) left ++
          .text ⟨endRow level, rightCol (level + 1) col, "|"⟩ ::
          marks evaluated overflowed (level + 1) (rightCol (level + 1) col) right
      else cutOperandMarks level col ++ cutOperandMarks level col

end ArithTree.Drawing
