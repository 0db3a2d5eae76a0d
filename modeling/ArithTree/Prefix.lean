import ArithTree.Expr

/-! Trees from words with every operator before its operands. An operator reads its left operand
and then its right one from the words that follow it; `room` says how many more operators may be
nested, and every other word has to be a literal. Proved: one equation for each kind of first
word. -/

namespace ArithTree.Prefix

/-- Reads one tree and gives the words after it. -/
def readNode (room : Nat) : List String → Except ReadError (Expr × List String)
  | [] => .error .unexpectedEnd
  | word :: rest =>
    match Operator.ofSymbol? word, room with
    | none, _ => do
      let v ← Numeral.read word
      .ok (.literal v, rest)
    | some _, 0 => .error .nestingTooDeep
    | some op, room + 1 => do
      let (left, rest) ← readNode room rest
      let (right, rest) ← readNode room rest
      .ok (.node op left right, rest)

theorem readNode_nil (room : Nat) : readNode room [] = .error .unexpectedEnd := by
  simp [readNode]

theorem readNode_operand {word : String} (h : Operator.ofSymbol? word = none) (room : Nat)
    (rest : List String) :
    readNode room (word :: rest) = (Numeral.read word).map fun v => (.literal v, rest) := by
  simp only [readNode, h]
  cases Numeral.read word <;> rfl

theorem readNode_symbol_zero (op : Operator) (rest : List String) :
    readNode 0 (op.symbol :: rest) = .error .nestingTooDeep := by
  simp [readNode]

theorem readNode_symbol_succ (op : Operator) (room : Nat) (rest : List String) :
    readNode (room + 1) (op.symbol :: rest) = (do
      let (left, rest) ← readNode room rest
      let (right, rest) ← readNode room rest
      .ok (.node op left right, rest)) := by
  simp [readNode]

/-- Reads a tree that takes up all the words. -/
def read (words : List String) : Except ReadError Expr := do
  match ← readNode maxNesting words with
  | (root, []) => .ok root
  | (_, extra :: _) => .error (.trailingWord extra)

end ArithTree.Prefix
