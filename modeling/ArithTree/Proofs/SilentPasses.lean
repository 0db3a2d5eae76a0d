import ArithTree.Proofs.Overflows
import ArithTree.Proofs.RepeatedEvaluation

/-! Passes that keep overflows to themselves. Whether a pass reports overflows has no part in what
it computes: a silent pass is the loud one with the reports of overflow left out, operator for
operator. Validity hangs on the other reports alone, so it is the same. Main statement: the two
passes over a tree differ in these reports only, and so the instructions for a text are the same
whether or not it was evaluated before. -/

namespace ArithTree

theorem Diagnostic.invalidates_eq : invalidates = fun d => !d.isOverflow := by
  funext d
  cases d <;> rfl

/-! ### Passes -/

namespace Pass

/-- The pass that has met the same and reports no overflow. -/
def silenced (p : Pass) : Pass :=
  { p with reportsOverflow := false, diagnostics := p.diagnostics.filter (!·.isOverflow) }

@[simp] theorem overflowed_silenced (p : Pass) : p.silenced.overflowed = p.overflowed := rfl

@[simp] theorem diagnostics_silenced (p : Pass) :
    p.silenced.diagnostics = p.diagnostics.filter (!·.isOverflow) := rfl

theorem isValid_silenced (p : Pass) : p.silenced.isValid = p.isValid := by
  simp [isValid, Diagnostic.invalidates_eq]

theorem silenced_report {cause : Diagnostic} (h : cause.invalidates = true) (p : Pass) :
    (p.report cause).silenced = p.silenced.report cause := by
  rw [Diagnostic.invalidates_eq] at h
  simp [silenced, report, h]

theorem silenced_overflow (p : Pass) (op : Operator) :
    (p.overflow op).silenced = p.silenced.overflow op := by
  unfold overflow
  split <;> simp [silenced, report, Diagnostic.isOverflow]

/-- One operator: leaving the reports out before it or after it makes no difference. -/
theorem combine_silenced (p : Pass) (op : Operator) (a b : Int32) :
    p.silenced.combine op a b = ((p.combine op a b).1, (p.combine op a b).2.silenced) := by
  unfold combine
  rw [overflowed_silenced]
  split
  · rfl
  · cases happly : op.apply a b with
    | value v => rfl
    | tooBig => simp only [silenced_overflow]
    | undefined cause =>
      have hcause := Operator.invalidates_of_apply_eq_undefined happly
      simp only [silenced_report hcause]

/-- A whole tree: the silent pass goes along with the loud one. -/
theorem evaluate_silenced (p : Pass) (e : Expr) :
    p.silenced.evaluate e = { p.evaluate e with pass := (p.evaluate e).pass.silenced } := by
  induction e generalizing p with
  | literal v => rfl
  | binary op left right kept ihl ihr =>
    simp only [evaluate_binary, ihl, ihr, combine_silenced]

/-- The silent pass from the start is the loud one with its overflows left out. -/
theorem evaluate_start_false (e : Expr) :
    (start false).evaluate e =
      { (start true).evaluate e with pass := ((start true).evaluate e).pass.silenced } :=
  evaluate_silenced (start true) e

end Pass

/-! ### Worksheets -/

namespace Worksheet

/-- Worksheets that have the same to say of the evaluation. -/
structure SameAnswers (w w' : Worksheet) : Prop where
  root : w.root = w'.root
  valid : w.valid = w'.valid
  overflowed : w.overflowed = w'.overflowed

variable {w w' : Worksheet}

theorem sameAnswers_evaluate (w : Worksheet) :
    SameAnswers (w.evaluate false).2 (w.evaluate true).2 := by
  cases hvalid : w.valid with
  | false =>
    rw [evaluate_of_invalid hvalid, evaluate_of_invalid hvalid]
    exact ⟨rfl, rfl, rfl⟩
  | true =>
    cases hroot : w.root with
    | none =>
      rw [evaluate_of_none hvalid hroot, evaluate_of_none hvalid hroot]
      exact ⟨rfl, rfl, rfl⟩
    | some root =>
      rw [evaluate_of_some hvalid hroot, evaluate_of_some hvalid hroot, Pass.evaluate_start_false]
      exact ⟨rfl, Pass.isValid_silenced _, rfl⟩

theorem instruct_congr (h : SameAnswers w w') (hsettled : w.Settled) (hsettled' : w'.Settled) :
    w.instruct.1 = w'.instruct.1 := by
  rw [instruct_of_settled hsettled, instruct_of_settled hsettled', steps, steps, h.root, h.valid,
    h.overflowed]

/-- The instructions of a worksheet that was not evaluated are those after a silent evaluation. -/
theorem instruct_of_not_evaluated (h : w.evaluated = false) :
    w.instruct.1 = (w.evaluate false).2.instruct.1 := by
  rw [instruct_of_settled (settled_evaluate false w)]
  unfold instruct
  rw [h]
  cases hover : (w.evaluate false).2.overflowed <;> cases hvalid : (w.evaluate false).2.valid <;>
    simp [hover, hvalid] <;> rfl

theorem evaluated_ofText (input : String) : (ofText input).evaluated = false := by
  unfold ofText
  split <;> rfl

end Worksheet

/-- A silent pass gives the same value as a loud one, keeps the same results and raises the same
flags; of the reports it leaves out the overflows and keeps the others in their order. So the
instructions for a text are the same before and after its evaluation. -/
theorem Pass.evaluate_silently :
    (∀ e,
      let loud := (start true).evaluate e
      let silent := (start false).evaluate e
      silent.value = loud.value ∧ silent.tree = loud.tree ∧
        silent.pass.overflowed = loud.pass.overflowed ∧
        silent.pass.isValid = loud.pass.isValid ∧
        silent.pass.diagnostics = loud.pass.diagnostics.filter (!·.isOverflow)) ∧
    ∀ input, (Worksheet.ofText input).instruct.1 =
      ((Worksheet.ofText input).evaluate true).2.instruct.1 := by
  constructor
  · intro e loud silent
    have hsilent : silent = { loud with pass := loud.pass.silenced } := evaluate_start_false e
    rw [hsilent]
    exact ⟨rfl, rfl, rfl, isValid_silenced loud.pass, rfl⟩
  · intro input
    rw [Worksheet.instruct_of_not_evaluated (Worksheet.evaluated_ofText input)]
    exact Worksheet.instruct_congr (Worksheet.sameAnswers_evaluate _)
      (Worksheet.settled_evaluate false _) (Worksheet.settled_evaluate true _)

end ArithTree
