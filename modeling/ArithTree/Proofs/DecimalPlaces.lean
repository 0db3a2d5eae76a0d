import Mathlib.Data.Nat.Digits.Defs
import ArithTree.Proofs.Obligations

/-! Literals place by place. A digit counts as often as the power of ten of its place says, the last
place being that of the ones, so the value of a numeral is the sum over its places and zeros in
front add nothing to it. Main statement: a word is read as a machine word exactly when it is a run
of digits, of any length, whose sum fits; a run whose sum does not fit and a word that is no run are
refused with the word itself; and the text of a machine word is read back, whatever zeros are put in
front of it. -/

namespace ArithTree.Numeral

variable {word : String} {v : Int32}

/-! ### Runs of digits -/

/-- One or more of the ten digits, and nothing else. -/
structure IsRun (word : String) : Prop where
  ne_empty : word ≠ ""
  digits : ∀ c ∈ word.toList, c ∈ "0123456789".toList

theorem isDigit_iff_mem {c : Char} : c.isDigit = true ↔ c ∈ "0123456789".toList := by
  constructor
  · intro h
    obtain ⟨d, hd, rfl, -⟩ := exists_digitChar_of_isDigit h
    have hall : ∀ d < 10, Nat.digitChar d ∈ "0123456789".toList := by decide
    exact hall d hd
  · have hall : "0123456789".toList.all Char.isDigit = true := by decide
    exact List.all_eq_true.1 hall c

theorem isNumeral_iff_isRun : isNumeral word = true ↔ IsRun word := by
  simp only [isNumeral, Bool.and_eq_true, Bool.not_eq_true', List.isEmpty_eq_false_iff, ne_eq,
    String.toList_eq_nil_iff, List.all_eq_true, isDigit_iff_mem]
  exact ⟨fun h => ⟨h.1, h.2⟩, fun h => ⟨h.ne_empty, h.digits⟩⟩

instance (word : String) : Decidable (IsRun word) := decidable_of_iff _ isNumeral_iff_isRun

/-! ### Places -/

/-- The digits of a word as numbers, from the place of the ones upward. -/
def places (word : String) : List Nat := (word.toList.map fun c => c.toNat - '0'.toNat).reverse

/-- Every digit times the power of ten of its place, summed up. -/
def placeSum (word : String) : Nat := Nat.ofDigits 10 (places word)

/-- Digits that follow a number move it up by their places. -/
theorem ofDigitChars_eq_ofDigits (cs : List Char) (n : Nat) :
    Nat.ofDigitChars 10 cs n =
      Nat.ofDigits 10 (cs.map fun c => c.toNat - '0'.toNat).reverse + 10 ^ cs.length * n := by
  induction cs generalizing n with
  | nil => simp
  | cons c cs ih =>
    rw [Nat.ofDigitChars_cons, ih, List.map_cons, List.reverse_cons, Nat.ofDigits_append,
      Nat.ofDigits_singleton, List.length_reverse, List.length_map, List.length_cons]
    ring

theorem value_eq_placeSum (word : String) : value word = placeSum word := by
  rw [value, ofDigitChars_eq_ofDigits, Nat.mul_zero, Nat.add_zero, placeSum, places]

/-! ### Zeros in front -/

/-- The word behind so many zeros. -/
def padded (zeros : Nat) (word : String) : String :=
  String.ofList (List.replicate zeros '0') ++ word

theorem toList_padded (zeros : Nat) (word : String) :
    (padded zeros word).toList = List.replicate zeros '0' ++ word.toList := by
  rw [padded, String.toList_append, String.toList_ofList]

theorem value_padded (zeros : Nat) (word : String) : value (padded zeros word) = value word := by
  rw [value, toList_padded, Nat.ofDigitChars_append, Nat.ofDigitChars_replicate_zero, Nat.mul_zero,
    value]

theorem isNumeral_padded (zeros : Nat) (h : isNumeral word = true) :
    isNumeral (padded zeros word) = true := by
  simp only [isNumeral, toList_padded, Bool.and_eq_true, List.all_eq_true] at h ⊢
  refine ⟨by simpa using fun _ => h.1, fun c hc => ?_⟩
  rcases List.mem_append.1 hc with hc | hc
  · rw [List.eq_of_mem_replicate hc]
    decide
  · exact h.2 c hc

/-! ### Reading -/

theorem read_eq_ok_iff_le :
    read word = .ok v ↔ isNumeral word = true ∧ value word ≤ 2147483647 ∧ v.toInt = value word := by
  rw [read_eq_ok_iff]
  constructor
  · rintro ⟨hnumeral, hvalue⟩
    have hlt := Int32.toInt_lt v
    exact ⟨hnumeral, by omega, hvalue⟩
  · rintro ⟨hnumeral, -, hvalue⟩
    exact ⟨hnumeral, hvalue⟩

/-- A numeral that is no literal is too large for a machine word, and nothing else is. -/
theorem read_eq_literalOutOfRange_iff :
    read word = .error (.literalOutOfRange word) ↔
      isNumeral word = true ∧ 2147483647 < value word := by
  cases hnumeral : isNumeral word with
  | false => simp [read, hnumeral]
  | true =>
    cases hv : Word32.ofInt? (value word) with
    | some v =>
      have hvalue := Word32.ofInt?_eq_some_iff.1 hv
      have hlt := Int32.toInt_lt v
      simp only [read, hnumeral, hv, if_true, reduceCtorEq, true_and, false_iff]
      omega
    | none =>
      have hrange := Word32.ofInt?_eq_none_iff.1 hv
      simp only [read, hnumeral, hv, if_true, true_and, true_iff]
      omega

theorem read_eq_unexpectedWord_iff :
    read word = .error (.unexpectedWord word) ↔ isNumeral word = false := by
  cases hnumeral : isNumeral word with
  | false => simp [read, hnumeral]
  | true => cases hv : Word32.ofInt? (value word) <;> simp [read, hnumeral, hv]

theorem read_padded_text_iff (zeros : Nat) :
    read (padded zeros (text v)) = .ok v ↔ 0 ≤ v.toInt := by
  rw [read_eq_ok_iff, value_padded]
  constructor
  · rintro ⟨-, hvalue⟩
    omega
  · intro h
    refine ⟨isNumeral_padded zeros (Expr.isLiteral_text h).isNumeral, ?_⟩
    rw [Expr.text_of_nonneg h, value_repr]
    exact (Int.toNat_of_nonneg h).symm

/-- A word is read exactly when it is a run of digits whose sum over the places is at most the
largest machine word, and then as that sum. Of all other words the runs are refused for being too
large, and the rest for being no run. A machine word that is not negative, and no other, is read
back from its text, with zeros in front of it or without. -/
theorem read_by_places :
    (∀ word,
      (∀ v, read word = .ok v ↔
        IsRun word ∧ placeSum word ≤ 2147483647 ∧ v.toInt = placeSum word) ∧
      (read word = .error (.literalOutOfRange word) ↔
        IsRun word ∧ 2147483647 < placeSum word) ∧
      (read word = .error (.unexpectedWord word) ↔ ¬IsRun word)) ∧
    ∀ v zeros, read (padded zeros (text v)) = .ok v ↔ 0 ≤ v.toInt := by
  refine ⟨fun word => ⟨fun v => ?_, ?_, ?_⟩, fun v zeros => read_padded_text_iff zeros⟩
  · rw [read_eq_ok_iff_le, isNumeral_iff_isRun, value_eq_placeSum]
  · rw [read_eq_literalOutOfRange_iff, isNumeral_iff_isRun, value_eq_placeSum]
  · rw [read_eq_unexpectedWord_iff, ← isNumeral_iff_isRun, Bool.not_eq_true]

example : read "0002147483647" = .ok 2147483647 ∧
    read "2147483648" = .error (.literalOutOfRange "2147483648") ∧
    read "٣" = .error (.unexpectedWord "٣") := by decide

end ArithTree.Numeral
