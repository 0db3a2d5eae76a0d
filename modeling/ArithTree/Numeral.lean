import ArithTree.ReadError
import ArithTree.Word32

/-! Decimal numerals and the machine words that they stand for. Any run of ASCII digits is a
numeral; a literal is one whose value fits a signed word of 32 bits. Proved: a literal is read as
its value, the digits of a natural number are a numeral with that number as its value, and no
operator is a numeral. -/

namespace ArithTree.Numeral

/-- A word of one or more ASCII digits. -/
def isNumeral (word : String) : Bool := !word.toList.isEmpty && word.toList.all Char.isDigit

/-- The number that a numeral writes, however many digits it has. -/
def value (word : String) : Nat := Nat.ofDigitChars 10 word.toList 0

/-- The decimal text of a machine word, with a minus sign where it is negative. -/
def text (v : Int32) : String := v.toInt.repr

/-- Reads a literal: leading zeros are fine, signs are not. -/
def read (word : String) : Except ReadError Int32 :=
  if isNumeral word then
    match Word32.ofInt? (value word) with
    | some v => .ok v
    | none => .error (.literalOutOfRange word)
  else .error (.unexpectedWord word)

theorem read_eq_ok_iff {word : String} {v : Int32} :
    read word = .ok v ↔ isNumeral word = true ∧ v.toInt = value word := by
  unfold read
  split
  · rw [← Word32.ofInt?_eq_some_iff]
    cases Word32.ofInt? (value word) <;> simp [*]
  · simp [*]

theorem value_repr (n : Nat) : value n.repr = n := by
  simp [value]

theorem isNumeral_repr (n : Nat) : isNumeral n.repr = true := by
  simp only [isNumeral, Nat.toList_repr, Bool.and_eq_true, List.all_eq_true]
  exact ⟨by simp, fun c hc => Nat.isDigit_of_mem_toDigits (by decide) (by decide) hc⟩

theorem isNumeral_symbol (op : Operator) : isNumeral op.symbol = false := by
  cases op <;> decide

theorem ofSymbol?_of_isNumeral {word : String} (h : isNumeral word = true) :
    Operator.ofSymbol? word = none := by
  cases hop : Operator.ofSymbol? word with
  | none => rfl
  | some op =>
    rw [← Operator.ofSymbol?_eq_some_iff.1 hop, isNumeral_symbol] at h
    contradiction

end ArithTree.Numeral
