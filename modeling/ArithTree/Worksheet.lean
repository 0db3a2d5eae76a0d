import ArithTree.Drawing
import ArithTree.Evaluation
import ArithTree.Narration
import ArithTree.Reading

/-! A worksheet holds one expression and what became of it: how it was read, whether it has been
evaluated, and what was reported. Every question about it has an answer in words, also where there
is no tree or the expression is invalid. -/

namespace ArithTree

structure Worksheet where
  root : Option Expr := none
  /-- The text was read, and no evaluation met a zero divisor. -/
  valid : Bool := true
  evaluated : Bool := false
  /-- The last evaluation met a result that was too big. -/
  overflowed : Bool := false
  /-- The notation of the text, if it was read. -/
  written : Option Notation := none
  /-- Why the text could not be read. -/
  error : Option ReadError := none
  /-- What evaluations reported, the earliest first. -/
  diagnostics : List Diagnostic := []
  deriving DecidableEq

namespace Worksheet

/-- A worksheet that no text was put on. -/
def blank : Worksheet := {}

def ofText (input : String) : Worksheet :=
  match Reading.ofText input with
  | .ok reading => { blank with written := some reading.written, root := reading.root }
  | .error cause => { blank with valid := false, error := some cause }

def isEmpty (w : Worksheet) : Bool := w.root.isNone

/-! ### Evaluation -/

/-- Evaluates the expression. The number is 0 where there is no value: without a tree, on an invalid
expression and after an overflow. -/
def evaluate (reportsOverflow : Bool) (w : Worksheet) : Int32 × Worksheet :=
  if w.valid then
    match w.root with
    | none => (0, { w with evaluated := true, overflowed := false })
    | some root =>
      let e := (Pass.start reportsOverflow).evaluate root
      (if e.pass.overflowed || !e.pass.isValid then 0 else e.value,
        { w with
          root := some e.tree
          valid := e.pass.isValid
          evaluated := true
          overflowed := e.pass.overflowed
          diagnostics := w.diagnostics ++ e.pass.diagnostics })
  else
    let reported := if reportsOverflow then [Diagnostic.invalidExpression] else []
    (0, { w with overflowed := false, diagnostics := w.diagnostics ++ reported })

/-- The diagnostics so far, and the worksheet without them. -/
def takeDiagnostics (w : Worksheet) : List Diagnostic × Worksheet :=
  (w.diagnostics, { w with diagnostics := [] })

/-! ### Answers in words -/

def emptyText : String := "Tree is empty; nothing to see here."

/-- How the text was read. -/
def status (w : Worksheet) : String :=
  if w.error.isSome then "Input does not match prefix, infix, or postfix notation."
  else (w.written.getD .blank).message

/-- The tree as one of its texts, named for the answer to an invalid expression. -/
def textAs (name : String) (toText : Expr → String) (w : Worksheet) : String :=
  if w.valid then w.root.elim emptyText toText
  else "Invalid expression; can't convert to " ++ name ++ "."

def toPrefix : Worksheet → String := textAs "prefix" Expr.toPrefix

def toPostfix : Worksheet → String := textAs "postfix" Expr.toPostfix

def toInfix : Worksheet → String := textAs "infix" Expr.toInfix

/-- There is a drawing where there is a tree and the expression is valid. -/
def drawing? (w : Worksheet) : Option Drawing :=
  if w.valid then w.root.map (Drawing.ofExpr w.evaluated w.overflowed) else none

def drawingText (w : Worksheet) : String :=
  if w.valid then w.drawing?.elim emptyText Drawing.text
  else "Invalid expression; can't draw a tree."

/-- Tells how to evaluate the expression; one that was never evaluated is evaluated first, without
reports of overflow. -/
def instruct (w : Worksheet) : String × Worksheet :=
  let w := if w.evaluated then w else (w.evaluate false).2
  if w.overflowed then ("Integer overflow; I guess you've gotta do it by hand.", w)
  else if w.valid then
    (w.root.elim "Take nothing and do nothing to it; you get nothing." Narration.instruct, w)
  else ("Invalid expression; you're on your own, kid.", w)

end Worksheet

end ArithTree
