import ArithTree.Proofs.RepeatedEvaluation
import ArithTree.Proofs.WorksheetReading

/-! What an evaluation reports is what became of the expression. A pass that reports overflow has an
overflow among its diagnostics exactly when its flag is raised, and all its other diagnostics are
about zero divisors. Main statement: the first evaluation of a text leaves no diagnostic exactly
when there is a value, which is when the text was read, nothing was too big and no zero divisor was
met. -/

namespace ArithTree

/-! ### Passes -/

namespace Pass

/-- The diagnostics of a pass account for its flag, and none of them is about the text. -/
structure Accounted (p : Pass) : Prop where
  reports : p.reportsOverflow = true
  overflow : p.overflowed = true ↔ ∃ op, Diagnostic.overflow op ∈ p.diagnostics
  wasRead : Diagnostic.invalidExpression ∉ p.diagnostics

variable {p : Pass} {op : Operator} {a b : Int32} {e : Expr}

theorem accounted_start : (start true).Accounted :=
  ⟨rfl, by simp [start], by simp [start]⟩

theorem Accounted.overflow_operator (h : p.Accounted) (op : Operator) :
    (p.overflow op).Accounted := by
  unfold Pass.overflow
  rw [if_pos h.reports]
  refine ⟨h.reports, ?_, ?_⟩
  · simp only [report, List.mem_append, List.mem_singleton, true_iff]
    exact ⟨op, .inr rfl⟩
  · simpa [report] using h.wasRead

theorem Accounted.report {cause : Diagnostic} (h : p.Accounted)
    (hcause : cause = .divisionByZero ∨ cause = .moduloByZero) : (p.report cause).Accounted := by
  rcases hcause with rfl | rfl <;>
    exact ⟨h.reports, by simpa [Pass.report] using h.overflow,
      by simpa [Pass.report] using h.wasRead⟩

theorem Accounted.combine (h : p.Accounted) : (p.combine op a b).2.Accounted := by
  rcases combine_cases p op a b with
    ⟨-, -, hcombine⟩ | ⟨-, ⟨v, -, hcombine⟩ | ⟨-, hcombine⟩ | ⟨cause, happly, hcombine⟩⟩
  · rwa [hcombine]
  · rwa [hcombine]
  · rw [hcombine]
    exact h.overflow_operator op
  · rw [hcombine]
    exact h.report (Operator.cause_of_apply_eq_undefined happly)

theorem Accounted.evaluate (h : p.Accounted) : (p.evaluate e).pass.Accounted := by
  induction e generalizing p with
  | literal v => exact h
  | binary op left right kept ihl ihr => exact (ihr (ihl h)).combine

end Pass

/-! ### Worksheets -/

namespace Worksheet

/-- Each flag of a worksheet has its diagnostic, and each diagnostic its reason. -/
structure Explained (w : Worksheet) : Prop where
  overflow : w.overflowed = true ↔ ∃ op, Diagnostic.overflow op ∈ w.diagnostics
  invalid : w.valid = false ↔ ∃ d ∈ w.diagnostics, d.invalidates = true
  unread : Diagnostic.invalidExpression ∈ w.diagnostics ↔ w.error ≠ none

/-- The text was read, nothing was too big, and no zero divisor was met. -/
structure HasValue (w : Worksheet) : Prop where
  wasRead : w.error = none
  fits : w.overflowed = false
  noDivision : Diagnostic.divisionByZero ∉ w.diagnostics
  noModulo : Diagnostic.moduloByZero ∉ w.diagnostics

variable {w : Worksheet} {input : String}

theorem Explained.diagnostics_eq_nil_iff (h : w.Explained) : w.diagnostics = [] ↔ w.HasValue := by
  constructor
  · intro hnil
    refine ⟨?_, ?_, by simp [hnil], by simp [hnil]⟩
    · by_contra herror
      simpa [hnil] using h.unread.2 herror
    · rw [← Bool.not_eq_true, h.overflow]
      simp [hnil]
  · intro hvalue
    rw [List.eq_nil_iff_forall_not_mem]
    intro d hd
    cases d with
    | overflow op => simpa [hvalue.fits] using h.overflow.2 ⟨op, hd⟩
    | divisionByZero => exact hvalue.noDivision hd
    | moduloByZero => exact hvalue.noModulo hd
    | invalidExpression => exact h.unread.1 hd hvalue.wasRead

theorem Explained.valid_and_fits_iff (h : w.Explained) :
    w.valid = true ∧ w.overflowed = false ↔ w.diagnostics = [] := by
  constructor
  · rintro ⟨hvalid, hfits⟩
    rw [List.eq_nil_iff_forall_not_mem]
    intro d hd
    cases hd' : d.invalidates with
    | true => simpa [hvalid] using h.invalid.2 ⟨d, hd, hd'⟩
    | false =>
      cases d with
      | overflow op => simpa [hfits] using h.overflow.2 ⟨op, hd⟩
      | divisionByZero => cases hd'
      | moduloByZero => cases hd'
      | invalidExpression => cases hd'
  · intro hnil
    have hvalue := h.diagnostics_eq_nil_iff.1 hnil
    refine ⟨?_, hvalue.fits⟩
    rw [← Bool.not_eq_false, h.invalid]
    simp [hnil]

theorem explained_evaluate_ofText (input : String) :
    ((ofText input).evaluate true).2.Explained := by
  cases hread : Reading.ofText input with
  | error cause =>
    have hsheet := ofText_of_error hread
    rw [evaluate_of_invalid (by rw [hsheet]), hsheet]
    exact ⟨by simp, by simp [Diagnostic.invalidates], by simp⟩
  | ok reading =>
    have hsheet := ofText_of_reading hread
    have hvalid : (ofText input).valid = true := by rw [hsheet]
    cases hroot : (ofText input).root with
    | none =>
      rw [evaluate_of_none hvalid hroot, hsheet]
      exact ⟨by simp, by simp, by simp⟩
    | some root =>
      have haccounted : ((Pass.start true).evaluate root).pass.Accounted :=
        Pass.accounted_start.evaluate
      rw [evaluate_of_some hvalid hroot, hsheet]
      refine ⟨by simpa using haccounted.overflow, ?_, ?_⟩
      · simp [Pass.isValid]
      · simpa using haccounted.wasRead

/-- Where there is a value, it is kept at the root. -/
theorem fst_evaluate_eq_value {reportsOverflow : Bool} {e : Expr}
    (hvalid : (w.evaluate reportsOverflow).2.valid = true)
    (hfits : (w.evaluate reportsOverflow).2.overflowed = false)
    (hroot : (w.evaluate reportsOverflow).2.root = some e) :
    (w.evaluate reportsOverflow).1 = e.value := by
  cases hread : w.valid with
  | false => simp [evaluate_of_invalid hread, hread] at hvalid
  | true =>
    cases hbefore : w.root with
    | none => simp [evaluate_of_none hread hbefore, hbefore] at hroot
    | some root =>
      rw [evaluate_of_some hread hbefore] at hvalid hfits hroot
      simp only [Option.some.injEq] at hvalid hfits hroot
      rw [← hroot, Pass.value_tree_evaluate]
      simp [evaluate, hread, hbefore, hvalid, hfits]

end Worksheet

end ArithTree
