import ArithTree.Proofs.ExactValues
import ArithTree.Proofs.Visits

/-! The results that a clean pass keeps. A pass that ends valid and without an overflow has applied
every operator, and none of them was too big or undefined, so the kept result is what the operator
makes of the values below it. Main statement: it is the exact result, but less `2 ^ 32` where the
least word is taken from a number that is not negative and where it is divided by -1. -/

namespace ArithTree

/-! ### Operators -/

namespace Operator

/-- The exact result of an operator on two words; a power is the one that goes towards zero and is
clamped to the range. -/
def exactResult? (op : Operator) (a b : Int32) : Option Int :=
  if op = pow then some (power a b).toInt else op.exactValue? a.toInt b.toInt

/-- The operands at which a result that was not too big is not the exact one. -/
def Misses (op : Operator) (a b : Int) : Prop :=
  op = sub ∧ 0 ≤ a ∧ b = -2147483648 ∨ op = div ∧ a = -2147483648 ∧ b = -1

instance (op : Operator) (a b : Int) : Decidable (op.Misses a b) :=
  inferInstanceAs (Decidable (_ ∨ _))

theorem power_of_apply_eq_value {a b v : Int32} (h : pow.apply a b = .value v) :
    power a b = v := by
  rw [apply] at h
  split at h
  · cases h
  · exact Outcome.value.inj h

/-- An operator that has a value has an exact one: a zero divisor is the only thing in its way. -/
theorem exists_exactValue?_of_apply_eq_value {op : Operator} {a b v : Int32} (hpow : op ≠ pow)
    (h : op.apply a b = .value v) : ∃ n, op.exactValue? a.toInt b.toInt = some n := by
  have hdivisor : ∀ {cause outcome}, (if b = 0 then Outcome.undefined cause else outcome) =
      .value v → b.toInt ≠ 0 := fun {cause outcome} hvalue hb => by
    rw [if_pos (Int32.toInt_inj.1 hb)] at hvalue
    cases hvalue
  cases op with
  | add => exact ⟨_, rfl⟩
  | sub => exact ⟨_, rfl⟩
  | mul => exact ⟨_, rfl⟩
  | pow => exact absurd rfl hpow
  | div => exact ⟨_, if_neg (hdivisor h)⟩
  | mod => exact ⟨_, if_neg (hdivisor h)⟩

/-- A difference that wraps around is in range only if the left operand is not negative. -/
theorem wraps_iff_misses {op : Operator} {a b n v : Int} (hexact : op.exactValue? a b = some n)
    (hv : v = op.wrapped a b) (hrange : -2147483648 ≤ v) : op.Wraps a b ↔ op.Misses a b := by
  unfold Wraps Misses
  refine or_congr_left ⟨?_, fun h => ⟨h.1, h.2.2⟩⟩
  rintro ⟨rfl, rfl⟩
  rw [wrapped_of_wraps hexact (.inl ⟨rfl, rfl⟩)] at hv
  have hn : a - -2147483648 = n := Option.some.inj hexact
  exact ⟨rfl, by omega, rfl⟩

theorem toInt_of_apply_eq_value {op : Operator} {a b v : Int32} (h : op.apply a b = .value v) :
    ∃ n, op.exactResult? a b = some n ∧
      v.toInt = if op.Misses a.toInt b.toInt then n - 4294967296 else n := by
  by_cases hpow : op = pow
  · subst hpow
    exact ⟨(power a b).toInt, if_pos rfl, by simp [Misses, power_of_apply_eq_value h]⟩
  obtain ⟨n, hexact⟩ := exists_exactValue?_of_apply_eq_value hpow h
  have hvalue : v.toInt = op.wrapped a.toInt b.toInt := by
    rcases apply_eq_exact_or_undefined a b hpow with happly | ⟨⟨cause, happly⟩, -⟩
    · rw [happly] at h
      rcases Outcome.exact_cases (op.wrapped a.toInt b.toInt) with ⟨-, w, hw, hcase⟩ | ⟨-, hcase⟩
      · rw [hcase, Outcome.value.injEq] at h
        rw [← h, hw]
      · simp [hcase] at h
    · simp [happly] at h
  have hmisses := wraps_iff_misses hexact hvalue (Int32.le_toInt v)
  refine ⟨n, by rw [exactResult?, if_neg hpow, hexact], ?_⟩
  split
  · next hmiss => rw [hvalue, wrapped_of_wraps hexact (hmisses.2 hmiss)]
  · next hnot => rw [hvalue, wrapped_of_exactValue? hexact fun hwraps => hnot (hmisses.1 hwraps)]

end Operator

/-! ### Clean passes -/

namespace Pass

variable {p : Pass} {e : Expr}

/-- In a pass that ends valid and without an overflow every operator has a value, and keeps it. -/
theorem apply_eq_value_of_valid (hfits : (p.evaluate e).pass.overflowed = false)
    (hvalid : (p.evaluate e).pass.isValid = true) {v : Visit} (hv : v ∈ p.visits e) :
    v.op.apply v.left v.right = .value v.result := by
  obtain ⟨houtcome, hbig⟩ := outcome?_of_not_overflowed hfits hv
  cases happly : v.op.apply v.left v.right with
  | value result =>
    have hresult : v.result = result := by rw [Visit.result, Visit.combine_eq, houtcome, happly]
    rw [hresult]
  | tooBig => exact absurd happly hbig
  | undefined cause =>
    have hreports : cause ∈ v.reports := by simp [Visit.reports, houtcome, happly]
    have hmem : cause ∈ (p.evaluate e).pass.diagnostics := by
      rw [(run_visits p e).diagnostics_eq]
      exact List.mem_append_right _ (List.mem_flatMap.2 ⟨v, hv, hreports⟩)
    have hinvalidates := Operator.invalidates_of_apply_eq_undefined happly
    have hnot : (p.evaluate e).pass.isValid = false := by
      simp only [isValid, Bool.not_eq_false', List.any_eq_true]
      exact ⟨cause, hmem, hinvalidates⟩
    simp [hnot] at hvalid

/-- After a fresh pass that ends valid and without an overflow, each operator node keeps the exact
result of its operator on the values below it, less `2 ^ 32` at the least word taken from a number
that is not negative and at the least word divided by -1. -/
theorem toInt_kept_of_valid (reportsOverflow : Bool) (e : Expr)
    (hfits : ((start reportsOverflow).evaluate e).pass.overflowed = false)
    (hvalid : ((start reportsOverflow).evaluate e).pass.isValid = true)
    {path : List Side} {op : Operator} {left right : Expr} {kept : Int32}
    (hnode : ((start reportsOverflow).evaluate e).tree.at? path =
      some (.binary op left right kept)) :
    ∃ n, op.exactResult? left.value right.value = some n ∧
      kept.toInt =
        if op = .sub ∧ 0 ≤ left.value.toInt ∧ right.value.toInt = -2147483648 ∨
            op = .div ∧ left.value.toInt = -2147483648 ∧ right.value.toInt = -1 then
          n - 4294967296
        else n := by
  obtain ⟨v, hv, -, rfl, hleft, hright, rfl⟩ := exists_visit_of_at? hnode
  rw [← hleft, ← hright]
  exact Operator.toInt_of_apply_eq_value (apply_eq_value_of_valid hfits hvalid hv)

/-- The least word is taken from 0, and divided by -1. -/
theorem toInt_kept_of_least :
    let least : Expr := .node .sub (.node .sub (.literal 0) (.literal 2147483647)) (.literal 1)
    let minusOne : Expr := .node .sub (.literal 0) (.literal 1)
    let e : Expr := .node .mod (.node .sub (.literal 0) least) (.node .div least minusOne)
    let done := (start false).evaluate e
    (done.pass.overflowed = false ∧ done.pass.isValid = true ∧
        done.tree.at? [.left] =
          some (.binary .sub (.literal 0) ((start false).evaluate least).tree (-2147483648)) ∧
        done.tree.at? [.right] =
          some (.binary .div ((start false).evaluate least).tree
            ((start false).evaluate minusOne).tree (-2147483648))) ∧
      (∃ n, Operator.sub.exactResult? 0 (-2147483648) = some n ∧ -2147483648 = n - 4294967296) ∧
      ∃ n, Operator.div.exactResult? (-2147483648) (-1) = some n ∧
        -2147483648 = n - 4294967296 := by
  intro least minusOne e
  have hfits : ((start false).evaluate e).pass.overflowed = false := by decide
  have hvalid : ((start false).evaluate e).pass.isValid = true := by decide
  have hleft : ((start false).evaluate e).tree.at? [.left] =
      some (.binary .sub (.literal 0) ((start false).evaluate least).tree (-2147483648)) := by
    decide
  have hright : ((start false).evaluate e).tree.at? [.right] =
      some (.binary .div ((start false).evaluate least).tree
        ((start false).evaluate minusOne).tree (-2147483648)) := by decide
  obtain ⟨n, hn, hsub⟩ := toInt_kept_of_valid false e hfits hvalid hleft
  obtain ⟨m, hm, hdiv⟩ := toInt_kept_of_valid false e hfits hvalid hright
  rw [if_pos (by decide)] at hsub hdiv
  exact ⟨⟨hfits, hvalid, hleft, hright⟩, ⟨n, hn, hsub⟩, m, hm, hdiv⟩

end Pass

end ArithTree
