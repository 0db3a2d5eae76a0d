import ArithTree.Proofs.Passes

/-! Zero divisors and what is reported of them. As long as nothing is too big every operator is
applied, so a quotient or a remainder is reported exactly where the value kept at its right operand
is 0, also where that 0 only stands for another zero divisor further down. Main statement: the
diagnostics of a pass without an overflow are read off the tree that it leaves, in the order in
which operators stand after their operands. -/

namespace ArithTree

/-! ### Operators -/

namespace Operator

/-- What is reported of an operator for the value of its right operand. -/
def zeroDivisor? (op : Operator) (b : Int32) : Option Diagnostic :=
  match op with
  | div => if b = 0 then some .divisionByZero else none
  | mod => if b = 0 then some .moduloByZero else none
  | add | sub | mul | pow => none

variable {op : Operator} {a b : Int32} {cause : Diagnostic}

theorem zeroDivisor?_ne_none_iff : op.zeroDivisor? b ≠ none ↔ (op = div ∨ op = mod) ∧ b = 0 := by
  cases op <;> simp [zeroDivisor?]

/-- Only a zero divisor leaves an operator without a result. -/
theorem apply_eq_undefined_iff :
    op.apply a b = .undefined cause ↔ op.zeroDivisor? b = some cause := by
  constructor
  · intro h
    obtain ⟨rfl | rfl, rfl⟩ := apply_eq_undefined h
    · exact congrArg some (Outcome.undefined.inj h)
    · exact congrArg some (Outcome.undefined.inj h)
  · intro h
    have hne : op.zeroDivisor? b ≠ none := by simp [h]
    obtain ⟨rfl | rfl, rfl⟩ := zeroDivisor?_ne_none_iff.1 hne
    · exact congrArg Outcome.undefined (Option.some.inj h)
    · exact congrArg Outcome.undefined (Option.some.inj h)

theorem zeroDivisor?_eq_none_of_apply {outcome : Outcome} (h : op.apply a b = outcome)
    (hdefined : ∀ cause, outcome ≠ .undefined cause) : op.zeroDivisor? b = none := by
  rw [Option.eq_none_iff_forall_ne_some]
  intro cause hcause
  exact hdefined cause (h.symm.trans (apply_eq_undefined_iff.2 hcause))

end Operator

/-! ### Trees -/

namespace Expr

/-- The operator nodes, each after those below it and the left ones first. -/
def operatorNodes : Expr → List Expr
  | literal _ => []
  | binary op left right result =>
    left.operatorNodes ++ right.operatorNodes ++ [binary op left right result]

/-- What is reported of a node for the value kept at its right operand. -/
def zeroDivisor? : Expr → Option Diagnostic
  | literal _ => none
  | binary op _ right _ => op.zeroDivisor? right.value

theorem forall_mem_operatorNodes_binary {P : Expr → Prop} {op : Operator} {left right : Expr}
    {result : Int32} :
    (∀ s ∈ (binary op left right result).operatorNodes, P s) ↔
      (∀ s ∈ left.operatorNodes, P s) ∧ (∀ s ∈ right.operatorNodes, P s) ∧
        P (binary op left right result) := by
  simp only [operatorNodes, List.forall_mem_append, List.forall_mem_singleton, and_assoc]

theorem filterMap_operatorNodes_binary {α : Type} (f : Expr → Option α) (op : Operator)
    (left right : Expr) (result : Int32) :
    (binary op left right result).operatorNodes.filterMap f =
      left.operatorNodes.filterMap f ++ right.operatorNodes.filterMap f ++
        (f (binary op left right result)).toList := by
  rw [operatorNodes, List.filterMap_append, List.filterMap_append]
  cases h : f (binary op left right result) <;> simp [h]

theorem exists_binary_of_zeroDivisor? {s : Expr} (h : s.zeroDivisor? ≠ none) :
    ∃ op left right result,
      s = binary op left right result ∧ (op = .div ∨ op = .mod) ∧ right.value = 0 := by
  cases s with
  | literal v => exact absurd rfl h
  | binary op left right result =>
    exact ⟨op, left, right, result, rfl, Operator.zeroDivisor?_ne_none_iff.1 h⟩

end Expr

/-! ### Passes -/

namespace Pass

variable {p : Pass} {op : Operator} {a b : Int32} {e : Expr}

/-- One operator: without an overflow a zero divisor is reported and has 0 for its result, and
nothing else is reported. -/
theorem combine_of_fits (h : (p.combine op a b).2.overflowed = false) :
    (p.combine op a b).2.diagnostics = p.diagnostics ++ (op.zeroDivisor? b).toList ∧
      (op.zeroDivisor? b ≠ none → (p.combine op a b).1 = 0) := by
  rcases combine_cases p op a b with
    ⟨hraised, -, hcombine⟩ | ⟨-, ⟨v, happly, hcombine⟩ | ⟨-, hcombine⟩ | ⟨cause, happly, hcombine⟩⟩
  · simp [hcombine, hraised] at h
  · have hnone := Operator.zeroDivisor?_eq_none_of_apply happly (by simp)
    simp [hcombine, hnone]
  · simp [hcombine] at h
  · simp [hcombine, Operator.apply_eq_undefined_iff.1 happly, report]

/-- What a pass without an overflow reports stands in the tree that it leaves. -/
theorem diagnostics_evaluate_of_fits (h : (p.evaluate e).pass.overflowed = false) :
    (p.evaluate e).pass.diagnostics =
      p.diagnostics ++ (p.evaluate e).tree.operatorNodes.filterMap Expr.zeroDivisor? := by
  induction e generalizing p with
  | literal v => simp [evaluate, Expr.operatorNodes]
  | binary op left right kept ihl ihr =>
    obtain ⟨hleft, hright⟩ := not_overflowed_operands h
    rw [evaluate_binary] at h ⊢
    rw [Expr.filterMap_operatorNodes_binary, Expr.zeroDivisor?, value_tree_evaluate]
    simp only at h ⊢
    rw [(combine_of_fits h).1, ihr hright, ihl hleft]
    simp only [List.append_assoc]

/-- A zero divisor has 0 for its result. -/
theorem value_eq_zero_of_zeroDivisor (h : (p.evaluate e).pass.overflowed = false) :
    ∀ s ∈ (p.evaluate e).tree.operatorNodes, s.zeroDivisor? ≠ none → s.value = 0 := by
  induction e generalizing p with
  | literal v => simp [evaluate, Expr.operatorNodes]
  | binary op left right kept ihl ihr =>
    obtain ⟨hleft, hright⟩ := not_overflowed_operands h
    rw [evaluate_binary] at h ⊢
    refine Expr.forall_mem_operatorNodes_binary.2 ⟨ihl hleft, ihr hright, ?_⟩
    rw [Expr.zeroDivisor?, value_tree_evaluate]
    exact (combine_of_fits h).2

/-- Without an overflow a fresh pass reports the zero divisors and nothing else, each once and in
the order in which operators stand after their operands: a quotient or a remainder whose right
operand keeps the value 0. Such a node keeps 0 itself, and the pass is invalid exactly when there is
one. -/
theorem diagnostics_eq_zeroDivisors (reportsOverflow : Bool) (e : Expr)
    (hfits : ((start reportsOverflow).evaluate e).pass.overflowed = false) :
    let done := (start reportsOverflow).evaluate e
    done.pass.diagnostics = done.tree.operatorNodes.filterMap Expr.zeroDivisor? ∧
      (∀ op left right kept, .binary op left right kept ∈ done.tree.operatorNodes →
        (op = .div ∨ op = .mod) → right.value = 0 → kept = 0) ∧
      (done.pass.isValid = false ↔
        ∃ op left right kept, .binary op left right kept ∈ done.tree.operatorNodes ∧
          (op = .div ∨ op = .mod) ∧ right.value = 0) := by
  intro done
  have hreports : done.pass.diagnostics = done.tree.operatorNodes.filterMap Expr.zeroDivisor? :=
    diagnostics_evaluate_of_fits hfits
  refine ⟨hreports, ?_, ?_⟩
  · intro op left right kept hmem hop hzero
    exact value_eq_zero_of_zeroDivisor hfits _ hmem
      (Operator.zeroDivisor?_ne_none_iff.2 ⟨hop, hzero⟩)
  · rw [isValid, hreports, Bool.not_eq_false', List.any_eq_true]
    constructor
    · rintro ⟨cause, hcause, -⟩
      obtain ⟨s, hs, hreport⟩ := List.mem_filterMap.1 hcause
      obtain ⟨op, left, right, kept, rfl, hzero⟩ :=
        Expr.exists_binary_of_zeroDivisor? (s := s) (by simp [hreport])
      exact ⟨op, left, right, kept, hs, hzero⟩
    · rintro ⟨op, left, right, kept, hmem, hzero⟩
      obtain ⟨cause, hcause⟩ :=
        Option.ne_none_iff_exists'.1 (Operator.zeroDivisor?_ne_none_iff.2 hzero)
      have happly : op.apply left.value right.value = .undefined cause :=
        Operator.apply_eq_undefined_iff.2 hcause
      exact ⟨cause, List.mem_filterMap.2 ⟨_, hmem, hcause⟩,
        Operator.invalidates_of_apply_eq_undefined happly⟩

/-- The 0 that stands for `1/0` is itself a zero divisor, and so is the one above it. -/
theorem diagnostics_eq_zeroDivisors_of_cascade :
    let remainder : Expr := .node .mod (.literal 3) (.node .div (.literal 1) (.literal 0))
    let e : Expr := .node .add (.node .div (.literal 5) remainder) (.literal 7)
    let done := (start true).evaluate e
    done.pass.overflowed = false ∧
      done.pass.diagnostics = [.divisionByZero, .moduloByZero, .divisionByZero] ∧
      done.pass.isValid = false ∧ done.value = 7 := by
  intro remainder e
  have hfits : ((start true).evaluate e).pass.overflowed = false := by decide
  obtain ⟨hreports, -, hinvalid⟩ := diagnostics_eq_zeroDivisors true e hfits
  refine ⟨hfits, hreports.trans (by decide), hinvalid.2 ?_, by decide⟩
  exact ⟨.div, .literal 1, .literal 0, 0, by decide, .inl rfl, rfl⟩

end Pass

end ArithTree
