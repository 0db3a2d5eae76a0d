import ArithTree.Worksheet

/-! The report on one text: how it was read, the tree in its three notations, the value or what was
reported instead, the drawing, and the instructions. -/

namespace ArithTree.Report

/-- One line for every diagnostic, and one for the value if there is one. -/
def valueLines (diagnostics : List Diagnostic) (value? : Option Int32) : String :=
  let texts := diagnostics.map Diagnostic.message ++ (value?.map Numeral.text).toList
  String.join (texts.map (· ++ "\n"))

def text (input : String) : String :=
  let read := Worksheet.ofText input
  let (value, evaluated) := read.evaluate true
  let (diagnostics, settled) := evaluated.takeDiagnostics
  let value? := if settled.valid && !settled.overflowed then some value else none
  settled.status ++ "\n\n"
    ++ "Prefix:      " ++ read.toPrefix ++ "\n"
    ++ "Postfix:     " ++ read.toPostfix ++ "\n"
    ++ "Infix:       " ++ read.toInfix ++ "\n\n"
    ++ "Final value: " ++ valueLines diagnostics value? ++ "\n"
    ++ "Drawing:\n\n" ++ settled.drawingText ++ "\n\n"
    ++ "Instructions:\n\n" ++ settled.instruct.1

end ArithTree.Report
