import ArithTree.Drawing.Layout
import ArithTree.Text.Blank

/-! The drawing of a tree: its canvas, and whether every part of the tree is on it. -/

namespace ArithTree

structure Drawing where
  canvas : Drawing.Canvas
  /-- Nothing was cut. -/
  complete : Bool
  deriving DecidableEq

namespace Drawing

/-- Draws a tree from its root in the middle of the top. The results that an evaluated tree keeps
are drawn too; in an overflowed one, those at the ceiling are shown as too big. -/
def ofExpr (evaluated overflowed : Bool) (root : Expr) : Drawing :=
  let ms := marks evaluated overflowed 0 rootCol root
  ⟨Canvas.blank.stampAll (ms.map Mark.stamp), ms.all (!·.isCut)⟩

def rows (d : Drawing) : List String := d.canvas.lines

def heading (d : Drawing) : String :=
  if d.complete then "Tree drawn successfully."
  else "Some parts of the tree don't fit in the drawing (indicated by Xs)."

/-- The heading over the rows, without the blanks at the end. -/
def text (d : Drawing) : String :=
  Text.trimEnd (d.heading ++ "\n" ++ "\n".intercalate d.rows)

end Drawing

end ArithTree
