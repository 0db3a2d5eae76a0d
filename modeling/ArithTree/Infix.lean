import ArithTree.Numeral

/-! Words with every operator between its operands, rearranged by precedence. The words are read
from left to right: numerals are emitted at once, operators wait in a yard until one that binds less
tightly arrives or their group is closed. Only a strictly tighter operator is released, so a chain
of equal precedence groups to the right. Reading the words backwards instead, from the last to the
first with parentheses exchanged, groups every chain to the left, and the emitted words, the latest
first, then have each operator before its operands. Proved: what the step makes of each kind of
word. -/

namespace ArithTree.Infix

/-- What waits in the yard: an open group or an operator without its right operand. -/
inductive Held where
  | opening
  | operator (op : Operator)
  deriving DecidableEq

/-- The state of a scan: the words emitted so far and what waits, both the latest first. -/
structure Yard where
  emitted : List String
  held : List Held
  deriving DecidableEq

namespace Yard

def empty : Yard := ⟨[], []⟩

/-- An operator arrives: those that bind tighter are released before it waits. -/
def receive (op : Operator) (emitted : List String) : List Held → Yard
  | .operator top :: rest =>
    if op.precedence < top.precedence then receive op (top.symbol :: emitted) rest
    else ⟨emitted, .operator op :: .operator top :: rest⟩
  | held => ⟨emitted, .operator op :: held⟩

/-- The innermost group is closed: all its operators are released. -/
def close (emitted : List String) : List Held → Except ReadError Yard
  | .operator top :: rest => close (top.symbol :: emitted) rest
  | .opening :: rest => .ok ⟨emitted, rest⟩
  | [] => .error .unmatchedParenthesis

/-- The words have ended: all operators are released, and no group may be open. -/
def drain (emitted : List String) : List Held → Except ReadError (List String)
  | .operator top :: rest => drain (top.symbol :: emitted) rest
  | .opening :: _ => .error .unmatchedParenthesis
  | [] => .ok emitted

/-- Reads one word. -/
def step (yard : Yard) (word : String) : Except ReadError Yard :=
  if Numeral.isNumeral word then .ok ⟨word :: yard.emitted, yard.held⟩
  else if word = "(" then .ok ⟨yard.emitted, .opening :: yard.held⟩
  else if word = ")" then close yard.emitted yard.held
  else
    match Operator.ofSymbol? word with
    | some op => .ok (receive op yard.emitted yard.held)
    | none => .error (.unexpectedWord word)

theorem step_numeral {word : String} (h : Numeral.isNumeral word = true) (yard : Yard) :
    yard.step word = .ok ⟨word :: yard.emitted, yard.held⟩ := by
  simp [step, h]

theorem step_opening (yard : Yard) :
    yard.step "(" = .ok ⟨yard.emitted, .opening :: yard.held⟩ := by
  have h : Numeral.isNumeral "(" = false := by decide
  simp [step, h]

theorem step_closing (yard : Yard) : yard.step ")" = close yard.emitted yard.held := by
  have h : Numeral.isNumeral ")" = false := by decide
  simp [step, h]

theorem step_symbol (op : Operator) (yard : Yard) :
    yard.step op.symbol = .ok (receive op yard.emitted yard.held) := by
  have h : op.symbol ≠ "(" ∧ op.symbol ≠ ")" := by cases op <;> decide
  simp [step, Numeral.isNumeral_symbol, h]

end Yard

/-- The emitted words of a whole scan, the latest first. -/
def scan (words : List String) : Except ReadError (List String) := do
  let yard ← words.foldlM Yard.step Yard.empty
  Yard.drain yard.emitted yard.held

/-- The same expression with every operator after its operands; chains of equal precedence group to
the right. -/
def toPostfixWords (words : List String) : Except ReadError (List String) :=
  (scan words).map List.reverse

/-! ### Backwards -/

/-- Exchanges the two parentheses. -/
def facing (word : String) : String :=
  if word = "(" then ")" else if word = ")" then "(" else word

def backwards (words : List String) : List String := words.reverse.map facing

/-- The same expression with every operator before its operands; chains of equal precedence group to
the left. -/
def toPrefixWords (words : List String) : Except ReadError (List String) := scan (backwards words)

end ArithTree.Infix
