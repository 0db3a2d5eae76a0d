import ArithTree.Operator

/-! Why a text is no expression. Each cause carries what its message names. A reading goes through
stages, and the first cause that any of them finds ends it. Proved: a reading in two stages succeeds
exactly when both do, and so does a scan that goes on from where another ended. -/

namespace ArithTree

/-- The largest number of operators that may be nested in one another. -/
def maxNesting : Nat := 1000

inductive ReadError where
  /-- The first character outside the alphabet of expressions. -/
  | invalidCharacter (found : Char)
  | unknownNotation
  /-- The words end where an operand is still owed. -/
  | unexpectedEnd
  /-- An operator written after its operands finds fewer than two of them. -/
  | missingOperand (op : Operator)
  /-- So many operands remain, and no operator joins them. -/
  | danglingOperands (count : Nat)
  | unmatchedParenthesis
  | unexpectedWord (word : String)
  | literalOutOfRange (literal : String)
  /-- Operators nest deeper than `maxNesting`. -/
  | nestingTooDeep
  /-- The expression is complete, and this word follows it. -/
  | trailingWord (word : String)
  deriving DecidableEq

def ReadError.message : ReadError → String
  | invalidCharacter found => "Invalid character '" ++ String.singleton found ++ "' in input."
  | unknownNotation => "Input matches no known notation."
  | unexpectedEnd => "Unexpected end of input; an operand is missing."
  | missingOperand op => "Operator '" ++ op.symbol ++ "' is missing an operand."
  | danglingOperands count => count.repr ++ " operands were left over without an operator."
  | unmatchedParenthesis => "Unmatched parenthesis."
  | unexpectedWord word => "Unexpected token: " ++ word ++ "."
  | literalOutOfRange literal => "Literal " ++ literal ++ " is too large."
  | nestingTooDeep => "Expression nests more than " ++ maxNesting.repr ++ " operators deep."
  | trailingWord word => "Extra tokens after expression. Check your input: " ++ word

/-! ### Stages -/

namespace ReadError

variable {α β : Type}

@[simp] theorem ok_bind (a : α) (f : α → Except ReadError β) : (Except.ok a >>= f) = f a := rfl

@[simp] theorem error_bind (cause : ReadError) (f : α → Except ReadError β) :
    (Except.error cause >>= f) = .error cause := rfl

theorem bind_eq_ok_iff {x : Except ReadError α} {f : α → Except ReadError β} {b : β} :
    x >>= f = .ok b ↔ ∃ a, x = .ok a ∧ f a = .ok b := by
  cases x <;> simp

theorem map_eq_ok_iff {x : Except ReadError α} {f : α → β} {b : β} :
    x.map f = .ok b ↔ ∃ a, x = .ok a ∧ f a = b := by
  cases x <;> simp [Except.map]

/-! ### Scans -/

variable {f : β → α → Except ReadError β} {b b' : β} {a : α} {as as' : List α}

theorem foldlM_cons_eq_ok_iff :
    (a :: as).foldlM f b = .ok b' ↔
      ∃ between, f b a = .ok between ∧ as.foldlM f between = .ok b' := by
  rw [List.foldlM_cons, bind_eq_ok_iff]

theorem foldlM_append_eq_ok_iff :
    (as ++ as').foldlM f b = .ok b' ↔
      ∃ between, as.foldlM f b = .ok between ∧ as'.foldlM f between = .ok b' := by
  rw [List.foldlM_append, bind_eq_ok_iff]

end ReadError

end ArithTree
