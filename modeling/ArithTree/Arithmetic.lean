import ArithTree.Diagnostic
import ArithTree.Word32

/-! What each operator makes of two signed machine words of 32 bits. Sums and products are exact or
too big; a difference adds the negated word, and the least word is its own negation; quotients and
remainders go towards zero and wrap; a power is taken over the rationals, goes towards zero and is
clamped to the range. Proved: cutting a large exponent down changes no clamped power. -/

namespace ArithTree

/-! ### Powers -/

/-- An exponent of the same parity, at most 33. Past 31 a base other than -1, 0 and 1 has left the
range for good. -/
def damped (n : Nat) : Nat := min n (32 + n % 2)

theorem damped_eq_or (n : Nat) :
    damped n = n ∨ 32 ≤ damped n ∧ ∃ k, n = damped n + (k + k) ∧ n ≠ 0 := by
  by_cases h : n ≤ 32 + n % 2
  · exact .inl (Nat.min_eq_left h)
  · refine .inr ⟨by simp only [damped]; omega, (n - 32) / 2, ?_, by omega⟩
    simp only [damped]
    omega

theorem pow_damped (b : Int) (n : Nat) :
    b.pow (damped n) = b.pow n ∨ (4294967296 ≤ b.pow (damped n) ∧ 4294967296 ≤ b.pow n) ∨
      (b.pow (damped n) ≤ -4294967296 ∧ b.pow n ≤ -4294967296) := by
  have hpow : ∀ (a : Int) (m : Nat), a.pow m = a ^ m := fun _ _ => rfl
  rcases damped_eq_or n with h | ⟨hd, k, hn, h0⟩
  · exact .inl (by rw [h])
  have hsplit : b.pow n = b.pow (damped n) * (b.pow k * b.pow k) := by
    simp only [hpow, ← Int.pow_add, ← hn]
  by_cases hz : b = 0
  · refine .inl ?_
    simp only [hz, hpow]
    rw [Int.zero_pow (by omega), Int.zero_pow h0]
  by_cases hone : b.natAbs = 1
  · refine .inl ?_
    have hk : b.pow k * b.pow k = 1 := by
      have hb : b * b = 1 := by
        rcases Int.natAbs_eq_iff.1 hone with rfl | rfl <;> rfl
      simp only [hpow, ← Int.mul_pow, hb, Int.one_pow]
    rw [hsplit, hk, Int.mul_one]
  have hlarge : ∀ m, 32 ≤ m → 4294967296 ≤ (b.pow m).natAbs := by
    intro m hm
    rw [hpow, Int.natAbs_pow]
    exact Nat.le_trans (Nat.pow_le_pow_right (n := 2) (by decide) hm)
      (Nat.pow_le_pow_left (by omega) m)
  have hdamped := hlarge (damped n) hd
  have hwhole := hlarge n (by omega)
  have hk : b.pow k ≠ 0 := Int.pow_ne_zero hz
  have hsquare : 0 < b.pow k * b.pow k := by
    rcases Int.lt_or_gt_of_ne hk with hneg | hpos
    · exact Int.mul_pos_of_neg_of_neg hneg hneg
    · exact Int.mul_pos hpos hpos
  rcases Int.lt_or_gt_of_ne (show b.pow (damped n) ≠ 0 from Int.pow_ne_zero hz) with hneg | hpos
  · have := Int.mul_neg_of_neg_of_pos hneg hsquare
    rw [← hsplit] at this
    omega
  · have := Int.mul_pos hpos hsquare
    rw [← hsplit] at this
    omega

theorem ofIntClamp_pow_damped (b : Int) (n : Nat) :
    Int32.ofIntClamp (b.pow (damped n)) = Int32.ofIntClamp (b.pow n) := by
  have hmin : Int32.minValue.toInt = -2147483648 := by decide
  have hmax : Int32.maxValue.toInt = 2147483647 := by decide
  rcases pow_damped b n with h | ⟨h, h'⟩ | ⟨h, h'⟩
  · rw [h]
  · unfold Int32.ofIntClamp
    rw [dif_pos (by omega), dif_neg (by omega), dif_pos (by omega), dif_neg (by omega)]
  · unfold Int32.ofIntClamp
    rw [dif_neg (by omega), dif_neg (by omega)]

/-- The exact power, cut towards zero and clamped to the range. A negative power of zero is
infinite, and everything to the power of zero is 1. -/
def power (base exponent : Int32) : Int32 :=
  match exponent.toInt with
  | .ofNat n => Int32.ofIntClamp (base.toInt.pow (damped n))
  | .negSucc n =>
    if base = 0 then Word32.ceiling
    else Int32.ofIntClamp (Int.tdiv 1 (base.toInt.pow (damped (n + 1))))

/-! ### Operators -/

/-- What an operator makes of its operands. -/
inductive Outcome where
  | value (v : Int32)
  | tooBig
  | undefined (cause : Diagnostic)
  deriving DecidableEq

/-- An exact result is a value if it is in range. -/
def Outcome.exact (n : Int) : Outcome :=
  match Word32.ofInt? n with
  | some v => .value v
  | none => .tooBig

def Operator.apply (op : Operator) (a b : Int32) : Outcome :=
  match op with
  | add => .exact (a.toInt + b.toInt)
  | sub => .exact (a.toInt + (-b).toInt)
  | mul => .exact (a.toInt * b.toInt)
  | div => if b = 0 then .undefined .divisionByZero else .value (a / b)
  | mod => if b = 0 then .undefined .moduloByZero else .value (a % b)
  | pow => if power a b = Word32.ceiling then .tooBig else .value (power a b)

end ArithTree
