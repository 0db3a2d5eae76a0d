/-! The six binary operators of the expression language: how they are written, how tightly they
bind, and the noun for the result of each. Proved: a word names an operator exactly when it is that
operator's symbol, so symbols are never shared. -/

namespace ArithTree

inductive Operator where
  | add | sub | mul | div | pow | mod
  deriving DecidableEq

namespace Operator

/-- Every operator, in the order `+ - * / ^ %`. -/
def all : List Operator := [add, sub, mul, div, pow, mod]

/-- The one character that writes an operator. -/
def glyph : Operator → Char
  | add => '+'
  | sub => '-'
  | mul => '*'
  | div => '/'
  | pow => '^'
  | mod => '%'

/-- The word that writes an operator. -/
def symbol (op : Operator) : String := String.singleton op.glyph

/-- The operator that a word writes; a longer word such as `+5` writes none. -/
def ofSymbol? (word : String) : Option Operator := all.find? (·.symbol == word)

/-- Sums bind weakest, powers tightest. -/
def precedence : Operator → Nat
  | add | sub => 1
  | mul | div | mod => 2
  | pow => 3

/-- What the result of an operator is called. -/
def noun : Operator → String
  | add => "addition result"
  | sub => "subtraction result"
  | mul => "multiplication result"
  | div => "division result"
  | pow => "exponentiation result"
  | mod => "modulus result"

@[simp] theorem mem_all (op : Operator) : op ∈ all := by
  cases op <;> decide

theorem glyph_injective {op op' : Operator} (h : op.glyph = op'.glyph) : op = op' := by
  revert h
  cases op <;> cases op' <;> decide

@[simp] theorem toList_symbol (op : Operator) : op.symbol.toList = [op.glyph] := by
  simp [symbol]

theorem length_symbol (op : Operator) : op.symbol.length = 1 := by
  rw [← String.length_toList, toList_symbol, List.length_singleton]

theorem symbol_injective {op op' : Operator} (h : op.symbol = op'.symbol) : op = op' := by
  have h' := congrArg String.toList h
  simp only [toList_symbol, List.cons.injEq, and_true] at h'
  exact glyph_injective h'

theorem ofSymbol?_eq_some_iff {word : String} {op : Operator} :
    ofSymbol? word = some op ↔ op.symbol = word := by
  constructor
  · intro h
    simpa using List.find?_some h
  · rintro rfl
    cases h : ofSymbol? op.symbol with
    | none => exact absurd (List.find?_eq_none.1 h op (mem_all op)) (by simp)
    | some found =>
      have hs : found.symbol = op.symbol := by simpa using List.find?_some h
      rw [symbol_injective hs]

@[simp] theorem ofSymbol?_symbol (op : Operator) : ofSymbol? op.symbol = some op :=
  ofSymbol?_eq_some_iff.2 rfl

end Operator

end ArithTree
