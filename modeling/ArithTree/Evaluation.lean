import ArithTree.Arithmetic
import ArithTree.Expr

/-! Evaluation of a tree from the leaves up. A pass goes through the operators in the order of the
word list that has them last, and remembers whether anything was too big and what it reported. A
result that is too big becomes the ceiling; from then on an operator with an operand at the ceiling
gives the ceiling without a look at the other one. A zero divisor gives 0 and is reported. Proved:
an evaluation gives the value of the tree after it, and changes nothing in the tree but the kept
results. -/

namespace ArithTree

/-- The state of an evaluation. -/
structure Pass where
  reportsOverflow : Bool
  overflowed : Bool := false
  /-- What was reported, the earliest first. -/
  diagnostics : List Diagnostic := []
  deriving DecidableEq

/-- What an evaluation gives: the value, the tree with its results kept, and the state after it. -/
structure Evaluated where
  value : Int32
  tree : Expr
  pass : Pass
  deriving DecidableEq

namespace Pass

def start (reportsOverflow : Bool) : Pass := { reportsOverflow }

def report (p : Pass) (d : Diagnostic) : Pass := { p with diagnostics := p.diagnostics ++ [d] }

/-- An operator's result was too big; this is reported only where the pass reports overflow. -/
def overflow (p : Pass) (op : Operator) : Pass :=
  let raised := { p with overflowed := true }
  if p.reportsOverflow then raised.report (.overflow op) else raised

/-- No zero divisor was met. -/
def isValid (p : Pass) : Bool := !p.diagnostics.any Diagnostic.invalidates

/-- One operator, its operands evaluated. -/
def combine (p : Pass) (op : Operator) (a b : Int32) : Int32 × Pass :=
  if p.overflowed && (a == Word32.ceiling || b == Word32.ceiling) then (Word32.ceiling, p)
  else
    match op.apply a b with
    | .value v => (v, p)
    | .tooBig => (Word32.ceiling, p.overflow op)
    | .undefined cause => (0, p.report cause)

/-- Evaluates a tree, the left operand of each operator before the right one. -/
def evaluate (p : Pass) : Expr → Evaluated
  | .literal v => ⟨v, .literal v, p⟩
  | .binary op left right _ =>
    let l := p.evaluate left
    let r := l.pass.evaluate right
    let (v, after) := r.pass.combine op l.value r.value
    ⟨v, .binary op l.tree r.tree v, after⟩

theorem evaluate_binary (p : Pass) (op : Operator) (left right : Expr) (kept : Int32) :
    p.evaluate (.binary op left right kept) =
      let l := p.evaluate left
      let r := l.pass.evaluate right
      let c := r.pass.combine op l.value r.value
      ⟨c.1, .binary op l.tree r.tree c.1, c.2⟩ := rfl

theorem value_tree_evaluate (p : Pass) (e : Expr) :
    (p.evaluate e).tree.value = (p.evaluate e).value := by
  cases e <;> rfl

theorem cleared_tree_evaluate (p : Pass) (e : Expr) :
    (p.evaluate e).tree.cleared = e.cleared := by
  induction e generalizing p with
  | literal v => rfl
  | binary op left right kept ihl ihr =>
    simp only [evaluate_binary, Expr.cleared, ihl, ihr]

end Pass

end ArithTree
