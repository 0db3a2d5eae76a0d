/-! Signed machine words of 32 bits, and which integers they hold. Proved: a word is found for an
integer exactly when the integer is its value. -/

namespace ArithTree.Word32

/-- The largest machine word. It also stands for every result that is too big. -/
def ceiling : Int32 := Int32.maxValue

/-- The machine word that holds an integer, if the integer is in range. -/
def ofInt? (n : Int) : Option Int32 :=
  if h : Int32.minValue.toInt ≤ n ∧ n ≤ Int32.maxValue.toInt then some (Int32.ofIntLE n h.1 h.2)
  else none

theorem ofInt?_eq_some_iff {n : Int} {v : Int32} : ofInt? n = some v ↔ v.toInt = n := by
  unfold ofInt?
  constructor
  · intro h
    split at h
    · cases h
      exact Int32.toInt_ofIntLE
    · cases h
  · rintro rfl
    rw [dif_pos ⟨Int32.minValue_le_toInt v, Int32.toInt_le v⟩, Int32.ofIntLE_toInt]

theorem ofInt?_eq_none_iff {n : Int} :
    ofInt? n = none ↔ n < -2147483648 ∨ 2147483647 < n := by
  have hmin : Int32.minValue.toInt = -2147483648 := by decide
  have hmax : Int32.maxValue.toInt = 2147483647 := by decide
  unfold ofInt?
  split
  · simp only [reduceCtorEq, false_iff]
    omega
  · simp only [true_iff]
    omega

@[simp] theorem ofInt?_toInt (v : Int32) : ofInt? v.toInt = some v := ofInt?_eq_some_iff.2 rfl

end ArithTree.Word32
