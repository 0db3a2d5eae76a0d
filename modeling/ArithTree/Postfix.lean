import ArithTree.ReadError

/-! Words with every operator after its operands, rearranged so that it comes before them. The words
are read from left to right over a stack of finished fragments: an operand becomes a fragment of its
own, and an operator joins the top two. Operands are opaque here; whether they are literals is found
out when the tree is read. Proved: what one operand and one operator make of the stack. -/

namespace ArithTree.Postfix

/-- Reads one word over the stack of fragments, the latest first. -/
def step (stack : List (List String)) (word : String) : Except ReadError (List (List String)) :=
  match Operator.ofSymbol? word with
  | none => .ok ([word] :: stack)
  | some op =>
    match stack with
    | right :: left :: rest => .ok ((word :: (left ++ right)) :: rest)
    | _ => .error (.missingOperand op)

/-- The one fragment that a complete expression leaves. -/
def finish : List (List String) → Except ReadError (List String)
  | [] => .error .unexpectedEnd
  | [fragment] => .ok fragment
  | stack => .error (.danglingOperands stack.length)

/-- The same expression with every operator before its operands. -/
def toPrefixWords (words : List String) : Except ReadError (List String) :=
  words.foldlM step [] >>= finish

theorem step_operand {word : String} (h : Operator.ofSymbol? word = none)
    (stack : List (List String)) : step stack word = .ok ([word] :: stack) := by
  simp [step, h]

theorem step_symbol (op : Operator) (left right : List String) (rest : List (List String)) :
    step (right :: left :: rest) op.symbol = .ok ((op.symbol :: (left ++ right)) :: rest) := by
  simp [step]

end ArithTree.Postfix
