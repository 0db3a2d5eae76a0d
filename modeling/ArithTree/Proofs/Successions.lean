import ArithTree.Proofs.RepeatedEvaluation

/-! Trees evaluated one after the other in one pass. A pass reads no kept result and takes nothing
back: what was reported stays in front of what is reported later, a raised flag stays up, and what
is invalid stays so. Main statement: whatever the state that a pass starts from, trees that differ
in kept results alone are evaluated to the same values, the same trees and the same states, and only
kept results are changed. -/

namespace ArithTree

namespace Pass

/-! ### What is never taken back -/

/-- A pass that has gone on from another one. -/
structure Extends (p q : Pass) : Prop where
  reportsOverflow : q.reportsOverflow = p.reportsOverflow
  diagnostics : p.diagnostics <+: q.diagnostics
  overflowed : p.overflowed = true → q.overflowed = true

variable {p q r : Pass}

theorem Extends.refl (p : Pass) : p.Extends p := ⟨rfl, List.prefix_refl _, id⟩

theorem Extends.trans (h : p.Extends q) (h' : q.Extends r) : p.Extends r :=
  ⟨h'.reportsOverflow.trans h.reportsOverflow, h.diagnostics.trans h'.diagnostics,
    fun hflag => h'.overflowed (h.overflowed hflag)⟩

/-- A report that makes a pass invalid is there for good. -/
theorem Extends.isValid (h : p.Extends q) (hvalid : p.isValid = false) : q.isValid = false := by
  simp only [Pass.isValid, Bool.not_eq_false', List.any_eq_true] at hvalid ⊢
  obtain ⟨d, hd, hinvalidates⟩ := hvalid
  exact ⟨d, h.diagnostics.subset hd, hinvalidates⟩

theorem extends_report (p : Pass) (d : Diagnostic) : p.Extends (p.report d) :=
  ⟨rfl, List.prefix_append _ _, id⟩

theorem extends_overflow (p : Pass) (op : Operator) : p.Extends (p.overflow op) where
  reportsOverflow := reportsOverflow_overflow p op
  diagnostics := by
    rw [diagnostics_overflow]
    exact List.prefix_append _ _
  overflowed _ := overflowed_overflow p op

theorem extends_combine (p : Pass) (op : Operator) (a b : Int32) :
    p.Extends (p.combine op a b).2 := by
  rcases combine_cases p op a b with
    ⟨-, -, hcombine⟩ | ⟨-, ⟨v, -, hcombine⟩ | ⟨-, hcombine⟩ | ⟨cause, -, hcombine⟩⟩ <;>
    rw [hcombine]
  · exact .refl p
  · exact .refl p
  · exact extends_overflow p op
  · exact extends_report p cause

theorem extends_evaluate (p : Pass) (e : Expr) : p.Extends (p.evaluate e).pass := by
  induction e generalizing p with
  | literal v => exact .refl p
  | binary op left right kept ihl ihr =>
    exact ((ihl p).trans (ihr (p.evaluate left).pass)).trans (extends_combine _ op _ _)

/-! ### Several trees -/

/-- What each of several trees gives, evaluated in the state that the one before it left. -/
def evaluateAll (p : Pass) : List Expr → List Evaluated
  | [] => []
  | e :: es => p.evaluate e :: (p.evaluate e).pass.evaluateAll es

theorem evaluate_of_cleared_eq {e e' : Expr} (h : e.cleared = e'.cleared) (p : Pass) :
    p.evaluate e = p.evaluate e' := by
  rw [← evaluate_cleared, h, evaluate_cleared]

theorem evaluateAll_map_cleared (p : Pass) (es : List Expr) :
    p.evaluateAll (es.map Expr.cleared) = p.evaluateAll es := by
  induction es generalizing p with
  | nil => rfl
  | cons e es ih => simp only [List.map_cons, evaluateAll, evaluate_cleared, ih]

theorem cleared_evaluateAll (p : Pass) (es : List Expr) :
    (p.evaluateAll es).map (·.tree.cleared) = es.map Expr.cleared := by
  induction es generalizing p with
  | nil => rfl
  | cons e es ih => simp only [evaluateAll, List.map_cons, cleared_tree_evaluate, ih]

/-- The states after each of the trees go on from the first one, and from one another. -/
theorem isChain_evaluateAll (p : Pass) (es : List Expr) :
    (p :: (p.evaluateAll es).map Evaluated.pass).IsChain Extends := by
  induction es generalizing p with
  | nil => exact List.isChain_singleton p
  | cons e es ih => exact List.isChain_cons_cons.2 ⟨extends_evaluate p e, ih _⟩

/-- Trees count by their shapes, operators and literals alone, whatever the pass has met before
them and whatever results they keep; and their evaluation takes nothing back. -/
theorem evaluate_by_shape (p : Pass) :
    (∀ e e', e.cleared = e'.cleared → p.evaluate e = p.evaluate e') ∧
      (∀ e,
        (p.evaluate e).tree.cleared = e.cleared ∧
          (p.evaluate e).value = (p.evaluate e).tree.value ∧
          p.diagnostics <+: (p.evaluate e).pass.diagnostics ∧
          (p.overflowed = true → (p.evaluate e).pass.overflowed = true) ∧
          (p.isValid = false → (p.evaluate e).pass.isValid = false)) ∧
      (∀ es es', es.map Expr.cleared = es'.map Expr.cleared →
        p.evaluateAll es = p.evaluateAll es') ∧
      ∀ es,
        (p.evaluateAll es).map (·.tree.cleared) = es.map Expr.cleared ∧
          (p :: (p.evaluateAll es).map Evaluated.pass).IsChain Extends := by
  refine ⟨fun e e' h => evaluate_of_cleared_eq h p, fun e => ?_, fun es es' h => ?_, fun es => ?_⟩
  · have hextends := extends_evaluate p e
    exact ⟨cleared_tree_evaluate p e, (value_tree_evaluate p e).symm, hextends.diagnostics,
      hextends.overflowed, hextends.isValid⟩
  · rw [← evaluateAll_map_cleared, h, evaluateAll_map_cleared]
  · exact ⟨cleared_evaluateAll p es, isChain_evaluateAll p es⟩

/-- A pass that has met an overflow and a zero divisor comes to `(2147483647*3)%0` and then to
`7-7`, once with stale results and once with none. -/
theorem evaluate_by_shape_of_stale_results :
    let p : Pass := ⟨true, true, [.overflow .add, .divisionByZero]⟩
    let stale : List Expr :=
      [.binary .mod (.binary .mul (.literal 2147483647) (.literal 3) 41) (.literal 0) (-5),
        .binary .sub (.literal 7) (.literal 7) 2147483647]
    let fresh : List Expr :=
      [.node .mod (.node .mul (.literal 2147483647) (.literal 3)) (.literal 0),
        .node .sub (.literal 7) (.literal 7)]
    (stale ≠ fresh ∧ stale.map Expr.cleared = fresh.map Expr.cleared ∧ p.overflowed = true ∧
        p.isValid = false) ∧
      p.evaluateAll stale = p.evaluateAll fresh ∧
        ∀ e ∈ stale, (p.evaluate e).pass.overflowed = true ∧
          (p.evaluate e).pass.isValid = false := by
  intro p stale fresh
  have hcleared : stale.map Expr.cleared = fresh.map Expr.cleared := by decide
  have hoverflowed : p.overflowed = true := rfl
  have hinvalid : p.isValid = false := by decide
  obtain ⟨-, hkept, hall, -⟩ := evaluate_by_shape p
  refine ⟨⟨by decide, hcleared, hoverflowed, hinvalid⟩, hall stale fresh hcleared, fun e _ => ?_⟩
  obtain ⟨-, -, -, hflag, hvalid⟩ := hkept e
  exact ⟨hflag hoverflowed, hvalid hinvalid⟩

end Pass

end ArithTree
