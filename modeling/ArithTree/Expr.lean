import ArithTree.Numeral

/-! Expression trees: literals joined by binary operators. An operator node keeps the result that
the last evaluation gave it, so that drawings and narrations can show it. A tree is written in three
ways: operators before their operands, after them, or between them inside parentheses. Proved: each
of the two word lists has one word a node. -/

namespace ArithTree

inductive Expr where
  | literal (value : Int32)
  | binary (op : Operator) (left right : Expr) (result : Int32)
  deriving DecidableEq

namespace Expr

/-- An operator node that no evaluation has reached: its result is 0. -/
def node (op : Operator) (left right : Expr) : Expr := binary op left right 0

/-- The value of a literal, the kept result of an operator node. -/
def value : Expr → Int32
  | literal v => v
  | binary _ _ _ result => result

def isLeaf : Expr → Bool
  | literal _ => true
  | binary .. => false

/-- What a drawing shows for the node itself. -/
def label : Expr → String
  | literal v => Numeral.text v
  | binary op _ _ _ => op.symbol

/-- What a narration calls the node. -/
def noun : Expr → String
  | literal _ => "value"
  | binary op _ _ _ => op.noun

/-- The longest chain of operators, each an operand of the one before it. -/
def nesting : Expr → Nat
  | literal _ => 0
  | binary _ left right _ => max left.nesting right.nesting + 1

/-- The number of levels; a literal alone is one level. -/
def depth (e : Expr) : Nat := e.nesting + 1

def operationCount : Expr → Nat
  | literal _ => 0
  | binary _ left right _ => left.operationCount + right.operationCount + 1

/-! ### Words -/

/-- Every operator before its operands. -/
def prefixWords : Expr → List String
  | literal v => [Numeral.text v]
  | binary op left right _ => op.symbol :: (left.prefixWords ++ right.prefixWords)

/-- Every operator after its operands. -/
def postfixWords : Expr → List String
  | literal v => [Numeral.text v]
  | binary op left right _ => left.postfixWords ++ right.postfixWords ++ [op.symbol]

theorem length_prefixWords (e : Expr) : e.prefixWords.length = 2 * e.operationCount + 1 := by
  induction e with
  | literal v => rfl
  | binary op left right result ihl ihr =>
    simp only [prefixWords, operationCount, List.length_cons, List.length_append, ihl, ihr]
    omega

theorem length_postfixWords (e : Expr) : e.postfixWords.length = 2 * e.operationCount + 1 := by
  induction e with
  | literal v => rfl
  | binary op left right result ihl ihr =>
    simp only [postfixWords, operationCount, List.length_append, List.length_singleton, ihl, ihr]
    omega

/-! ### Texts -/

def toPrefix (e : Expr) : String := " ".intercalate e.prefixWords

def toPostfix (e : Expr) : String := " ".intercalate e.postfixWords

/-- Every operator between its operands, each operation in parentheses and no spaces. -/
def toInfix : Expr → String
  | literal v => Numeral.text v
  | binary op left right _ => "(" ++ left.toInfix ++ op.symbol ++ right.toInfix ++ ")"

/-! ### Kept results -/

/-- The tree with every kept result put back to 0. -/
def cleared : Expr → Expr
  | literal v => literal v
  | binary op left right _ => node op left.cleared right.cleared

@[simp] theorem cleared_cleared (e : Expr) : e.cleared.cleared = e.cleared := by
  induction e with
  | literal v => rfl
  | binary op left right result ihl ihr => simp [cleared, node, ihl, ihr]

end Expr

end ArithTree
