import ArithTree.Operator

/-! What an evaluation reports. An overflow leaves the expression valid; everything else makes it
invalid. -/

namespace ArithTree

inductive Diagnostic where
  /-- The result of this operator does not fit a machine word. -/
  | overflow (op : Operator)
  | divisionByZero
  | moduloByZero
  /-- An evaluation was asked for where there is no valid expression. -/
  | invalidExpression
  deriving DecidableEq

namespace Diagnostic

def invalidates : Diagnostic → Bool
  | overflow _ => false
  | divisionByZero | moduloByZero | invalidExpression => true

def message : Diagnostic → String
  | overflow _ => "Integer overflow; can't evaluate."
  | divisionByZero => "Error: division by zero"
  | moduloByZero => "Error: modulo by zero"
  | invalidExpression => "Invalid expression; can't evaluate."

end Diagnostic

end ArithTree
