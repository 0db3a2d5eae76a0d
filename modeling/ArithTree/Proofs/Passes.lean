import ArithTree.Evaluation
import ArithTree.Proofs.WordTree

/-! What one evaluation does to a tree. An evaluation reads no kept result, and what it reports has
no part in the values, so trees that differ in kept results alone are left the same by all passes
that start from the same overflow flag. Proved besides: a result that is too big carries the ceiling
up to the root, and a pass becomes invalid only at a zero divisor, which stays visible in the
tree. -/

namespace ArithTree

theorem Operator.apply_eq_undefined {op : Operator} {a b : Int32} {cause : Diagnostic}
    (h : op.apply a b = .undefined cause) : (op = .div ∨ op = .mod) ∧ b = 0 := by
  have hexact : ∀ n, Outcome.exact n ≠ .undefined cause := by
    intro n
    unfold Outcome.exact
    split <;> simp
  cases op with
  | add => exact absurd h (hexact _)
  | sub => exact absurd h (hexact _)
  | mul => exact absurd h (hexact _)
  | div =>
    rw [apply] at h
    split at h
    · next hb => exact ⟨.inl rfl, hb⟩
    · cases h
  | mod =>
    rw [apply] at h
    split at h
    · next hb => exact ⟨.inr rfl, hb⟩
    · cases h
  | pow =>
    rw [apply] at h
    split at h <;> cases h

theorem Operator.cause_of_apply_eq_undefined {op : Operator} {a b : Int32} {cause : Diagnostic}
    (h : op.apply a b = .undefined cause) :
    cause = .divisionByZero ∨ cause = .moduloByZero := by
  obtain ⟨rfl | rfl, rfl⟩ := apply_eq_undefined h
  · rw [apply, if_pos rfl, Outcome.undefined.injEq] at h
    exact .inl h.symm
  · rw [apply, if_pos rfl, Outcome.undefined.injEq] at h
    exact .inr h.symm

theorem Operator.invalidates_of_apply_eq_undefined {op : Operator} {a b : Int32}
    {cause : Diagnostic} (h : op.apply a b = .undefined cause) : cause.invalidates = true := by
  rcases cause_of_apply_eq_undefined h with rfl | rfl
  · rfl
  · rfl

namespace Expr

/-- Somewhere in the tree a quotient or a remainder is kept as 0 because its right operand is 0. -/
def HasZeroDivisor : Expr → Prop
  | literal _ => False
  | binary op left right result =>
    (op = .div ∨ op = .mod) ∧ right.value = 0 ∧ result = 0 ∨
      left.HasZeroDivisor ∨ right.HasZeroDivisor

theorem literals_eq_of_cleared_eq {e e' : Expr} (h : e.cleared = e'.cleared) :
    e.literals = e'.literals := by
  rw [← literals_cleared, h, literals_cleared]

theorem nesting_eq_of_cleared_eq {e e' : Expr} (h : e.cleared = e'.cleared) :
    e.nesting = e'.nesting := by
  rw [← nesting_cleared, h, nesting_cleared]

end Expr

namespace Pass

variable {p p' : Pass} {op : Operator} {a b : Int32} {e e' : Expr}

/-! ### Reports -/

@[simp] theorem overflowed_report (p : Pass) (d : Diagnostic) :
    (p.report d).overflowed = p.overflowed := rfl

@[simp] theorem overflowed_overflow (p : Pass) (op : Operator) :
    (p.overflow op).overflowed = true := by
  unfold overflow
  split <;> rfl

@[simp] theorem reportsOverflow_report (p : Pass) (d : Diagnostic) :
    (p.report d).reportsOverflow = p.reportsOverflow := rfl

@[simp] theorem reportsOverflow_overflow (p : Pass) (op : Operator) :
    (p.overflow op).reportsOverflow = p.reportsOverflow := by
  unfold overflow
  split <;> rfl

theorem diagnostics_overflow (p : Pass) (op : Operator) :
    (p.overflow op).diagnostics =
      p.diagnostics ++ if p.reportsOverflow then [.overflow op] else [] := by
  unfold overflow
  split
  · rfl
  · exact (List.append_nil _).symm

@[simp] theorem isValid_report (p : Pass) (d : Diagnostic) :
    (p.report d).isValid = (p.isValid && !d.invalidates) := by
  simp [isValid, report]

@[simp] theorem isValid_overflow (p : Pass) (op : Operator) :
    (p.overflow op).isValid = p.isValid := by
  unfold overflow
  split <;> simp [isValid, report, Diagnostic.invalidates]

/-! ### One operator -/

/-- All that can happen at one operator, its operands evaluated. -/
theorem combine_cases (p : Pass) (op : Operator) (a b : Int32) :
    (p.overflowed = true ∧ (a = Word32.ceiling ∨ b = Word32.ceiling) ∧
        p.combine op a b = (Word32.ceiling, p)) ∨
      ¬(p.overflowed = true ∧ (a = Word32.ceiling ∨ b = Word32.ceiling)) ∧
        ((∃ v, op.apply a b = .value v ∧ p.combine op a b = (v, p)) ∨
          (op.apply a b = .tooBig ∧ p.combine op a b = (Word32.ceiling, p.overflow op)) ∨
          ∃ cause, op.apply a b = .undefined cause ∧ p.combine op a b = (0, p.report cause)) := by
  unfold combine
  split
  · next h =>
    simp only [Bool.and_eq_true, Bool.or_eq_true, beq_iff_eq] at h
    exact .inl ⟨h.1, h.2, rfl⟩
  · next h =>
    simp only [Bool.and_eq_true, Bool.or_eq_true, beq_iff_eq] at h
    refine .inr ⟨h, ?_⟩
    cases happly : op.apply a b with
    | value v => exact .inl ⟨v, rfl, rfl⟩
    | tooBig => exact .inr (.inl ⟨rfl, rfl⟩)
    | undefined cause => exact .inr (.inr ⟨cause, rfl, rfl⟩)

theorem combine_of_ceiling (h : p.overflowed = true)
    (hab : a = Word32.ceiling ∨ b = Word32.ceiling) :
    p.combine op a b = (Word32.ceiling, p) := by
  rcases combine_cases p op a b with ⟨-, -, hcombine⟩ | ⟨hno, -⟩
  · exact hcombine
  · exact absurd ⟨h, hab⟩ hno

theorem overflowed_combine (h : p.overflowed = true) : (p.combine op a b).2.overflowed = true := by
  rcases combine_cases p op a b with
    ⟨-, -, hcombine⟩ | ⟨-, ⟨v, -, hcombine⟩ | ⟨-, hcombine⟩ | ⟨cause, -, hcombine⟩⟩ <;>
    simp [hcombine, h]

/-- The operator at which the flag is raised gives the ceiling. -/
theorem combine_eq_ceiling_of_raised (h : p.overflowed = false)
    (hraised : (p.combine op a b).2.overflowed = true) :
    (p.combine op a b).1 = Word32.ceiling := by
  rcases combine_cases p op a b with
    ⟨htrue, -⟩ | ⟨-, ⟨v, -, hcombine⟩ | ⟨-, hcombine⟩ | ⟨cause, -, hcombine⟩⟩
  · simp [h] at htrue
  · simp [hcombine, h] at hraised
  · rw [hcombine]
  · simp [hcombine, h] at hraised

theorem combine_congr (h : p.overflowed = p'.overflowed) :
    (p.combine op a b).1 = (p'.combine op a b).1 ∧
      (p.combine op a b).2.overflowed = (p'.combine op a b).2.overflowed := by
  unfold combine
  rw [h]
  split
  · exact ⟨rfl, h⟩
  · split
    · exact ⟨rfl, h⟩
    · simp
    · exact ⟨rfl, h⟩

/-- Only a zero divisor makes a pass invalid. -/
theorem combine_of_invalidated (h : p.isValid = true)
    (hinvalid : (p.combine op a b).2.isValid = false) :
    (op = .div ∨ op = .mod) ∧ b = 0 ∧ (p.combine op a b).1 = 0 := by
  rcases combine_cases p op a b with
    ⟨-, -, hcombine⟩ | ⟨-, ⟨v, -, hcombine⟩ | ⟨-, hcombine⟩ | ⟨cause, happly, hcombine⟩⟩
  · simp [hcombine, h] at hinvalid
  · simp [hcombine, h] at hinvalid
  · simp [hcombine, h] at hinvalid
  · obtain ⟨hop, hb⟩ := Operator.apply_eq_undefined happly
    exact ⟨hop, hb, by rw [hcombine]⟩

/-! ### Whole trees -/

theorem overflowed_evaluate (h : p.overflowed = true) : (p.evaluate e).pass.overflowed = true := by
  induction e generalizing p with
  | literal v => exact h
  | binary op left right kept ihl ihr => exact overflowed_combine (ihr (ihl h))

/-- A pass that ends without an overflow has met none at either operand. -/
theorem not_overflowed_operands {left right : Expr} {kept : Int32}
    (h : (p.evaluate (.binary op left right kept)).pass.overflowed = false) :
    (p.evaluate left).pass.overflowed = false ∧
      ((p.evaluate left).pass.evaluate right).pass.overflowed = false := by
  rw [← Bool.not_eq_true] at h
  rw [← Bool.not_eq_true, ← Bool.not_eq_true]
  exact ⟨fun hleft => h (overflowed_combine (overflowed_evaluate hleft)),
    fun hright => h (overflowed_combine hright)⟩

/-- Wherever in the tree the flag is raised, the ceiling reaches the root: the flag stays raised,
and an operator with an operand at the ceiling then gives the ceiling. -/
theorem value_eq_ceiling_of_raised (h : p.overflowed = false)
    (hraised : (p.evaluate e).pass.overflowed = true) : (p.evaluate e).value = Word32.ceiling := by
  induction e generalizing p with
  | literal v => simp [evaluate, h] at hraised
  | binary op left right kept ihl ihr =>
    rw [evaluate_binary] at hraised ⊢
    simp only at hraised ⊢
    cases hleft : (p.evaluate left).pass.overflowed with
    | true =>
      rw [combine_of_ceiling (overflowed_evaluate hleft) (.inl (ihl h hleft))]
    | false =>
      cases hright : ((p.evaluate left).pass.evaluate right).pass.overflowed with
      | true => rw [combine_of_ceiling hright (.inr (ihr hleft hright))]
      | false => exact combine_eq_ceiling_of_raised hright hraised

theorem evaluate_congr (h : p.overflowed = p'.overflowed) (he : e.cleared = e'.cleared) :
    (p.evaluate e).value = (p'.evaluate e').value ∧
      (p.evaluate e).tree = (p'.evaluate e').tree ∧
      (p.evaluate e).pass.overflowed = (p'.evaluate e').pass.overflowed := by
  induction e generalizing p p' e' with
  | literal v =>
    cases e' with
    | literal v' =>
      obtain rfl := Expr.literal.inj he
      exact ⟨rfl, rfl, h⟩
    | binary op' left' right' kept' => cases he
  | binary op left right kept ihl ihr =>
    cases e' with
    | literal v' => cases he
    | binary op' left' right' kept' =>
      obtain ⟨rfl, hleft, hright, -⟩ := Expr.binary.inj he
      obtain ⟨hlvalue, hltree, hlflag⟩ := ihl h hleft
      obtain ⟨hrvalue, hrtree, hrflag⟩ := ihr hlflag hright
      simp only [evaluate_binary, hlvalue, hltree, hrvalue, hrtree]
      obtain ⟨hvalue, hflag⟩ := @combine_congr _ _ op (p'.evaluate left').value
        ((p'.evaluate left').pass.evaluate right').value hrflag
      exact ⟨hvalue, by rw [hvalue], hflag⟩

theorem hasZeroDivisor_of_invalidated (h : p.isValid = true)
    (hinvalid : (p.evaluate e).pass.isValid = false) : (p.evaluate e).tree.HasZeroDivisor := by
  induction e generalizing p with
  | literal v => simp [evaluate, h] at hinvalid
  | binary op left right kept ihl ihr =>
    rw [evaluate_binary] at hinvalid ⊢
    simp only [Expr.HasZeroDivisor] at hinvalid ⊢
    cases hleft : (p.evaluate left).pass.isValid with
    | false => exact .inr (.inl (ihl h hleft))
    | true =>
      cases hright : ((p.evaluate left).pass.evaluate right).pass.isValid with
      | false => exact .inr (.inr (ihr hleft hright))
      | true =>
        obtain ⟨hop, hb, hresult⟩ := combine_of_invalidated hright hinvalid
        exact .inl ⟨hop, by rw [value_tree_evaluate, hb], hresult⟩

end Pass

end ArithTree
