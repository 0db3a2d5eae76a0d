import ArithTree.Proofs.WorksheetHistory

/-! Evaluations of one worksheet, one after the other. The results that a tree keeps have no part in
its evaluation, so a valid expression is evaluated as before; what was found invalid is not
evaluated again, and only its overflow flag is taken back. Main statement: after any number of
evaluations the number, the tree, the flags and the answers are those after the first one, but for
the overflow of an expression that also has a zero divisor. -/

namespace ArithTree

theorem Pass.evaluate_cleared (p : Pass) (e : Expr) : p.evaluate e.cleared = p.evaluate e := by
  induction e generalizing p with
  | literal v => rfl
  | binary op left right kept ihl ihr =>
    simp only [Expr.cleared, Expr.node, evaluate_binary, ihl, ihr]

/-- The tree that an evaluation leaves is evaluated in the same way. -/
theorem Pass.evaluate_tree_evaluate (p p' : Pass) (e : Expr) :
    p.evaluate (p'.evaluate e).tree = p.evaluate e := by
  rw [← evaluate_cleared, cleared_tree_evaluate, evaluate_cleared]

namespace Worksheet

/-! ### Instructions -/

def overflowText : String := "Integer overflow; I guess you've gotta do it by hand."

def invalidText : String := "Invalid expression; you're on your own, kid."

/-- What there is to do for a valid expression, or for a blank text. -/
def steps (w : Worksheet) : String :=
  w.root.elim "Take nothing and do nothing to it; you get nothing." Narration.instruct

/-- A worksheet of which an evaluation has said what there is to say. -/
def Settled (w : Worksheet) : Prop :=
  w.evaluated = true ∨ w.valid = false ∧ w.overflowed = false

variable {w w' : Worksheet} {reportsOverflow : Bool}

theorem settled_evaluate (reportsOverflow : Bool) (w : Worksheet) :
    (w.evaluate reportsOverflow).2.Settled := by
  cases hvalid : w.valid with
  | false =>
    rw [evaluate_of_invalid hvalid]
    exact .inr ⟨hvalid, rfl⟩
  | true =>
    cases hroot : w.root with
    | none =>
      rw [evaluate_of_none hvalid hroot]
      exact .inl rfl
    | some root =>
      rw [evaluate_of_some hvalid hroot]
      exact .inl rfl

theorem instruct_of_settled (h : w.Settled) :
    w.instruct.1 =
      if w.overflowed then overflowText else if w.valid then w.steps else invalidText := by
  unfold instruct
  rcases h with hevaluated | ⟨hvalid, hoverflowed⟩
  · rw [hevaluated]
    cases hover : w.overflowed <;> cases hvalid : w.valid <;> simp [hover, hvalid] <;> rfl
  · cases hevaluated : w.evaluated <;>
      simp [hvalid, hoverflowed, evaluate_of_invalid hvalid, invalidText]

/-! ### One more evaluation -/

theorem evaluate_evaluate (reportsOverflow : Bool) (w : Worksheet) :
    let first := w.evaluate reportsOverflow
    ∃ ds, first.2.evaluate reportsOverflow =
      (first.1,
        { first.2 with
          overflowed := first.2.overflowed && first.2.valid
          diagnostics := first.2.diagnostics ++ ds }) := by
  intro first
  let reported := if reportsOverflow then [Diagnostic.invalidExpression] else []
  cases hvalid : w.valid with
  | false => exact ⟨reported, by simp [first, reported, evaluate, hvalid]⟩
  | true =>
    cases hroot : w.root with
    | none => exact ⟨[], by simp [first, evaluate, hvalid, hroot]⟩
    | some root =>
      cases hafter : ((Pass.start reportsOverflow).evaluate root).pass.isValid with
      | false => exact ⟨reported, by simp [first, reported, evaluate, hvalid, hroot, hafter]⟩
      | true =>
        -- the second pass goes over the tree that the first one left
        refine ⟨((Pass.start reportsOverflow).evaluate root).pass.diagnostics, ?_⟩
        simp [first, evaluate, hvalid, hroot, hafter, Pass.evaluate_tree_evaluate]

/-! ### Any number of evaluations -/

/-- Evaluates a worksheet a number of times. The number of none is 0. -/
def evaluateTimes : Nat → Worksheet → Int32 × Worksheet
  | 0, w => (0, w)
  | n + 1, w => (evaluateTimes n w).2.evaluate true

theorem settled_evaluateTimes (n : Nat) (w : Worksheet) : (evaluateTimes (n + 1) w).2.Settled :=
  settled_evaluate true (evaluateTimes n w).2

theorem evaluateTimes_succ_succ (n : Nat) (w : Worksheet) :
    let first := evaluateTimes 1 w
    ∃ ds, evaluateTimes (n + 2) w =
      (first.1,
        { first.2 with
          overflowed := first.2.overflowed && first.2.valid
          diagnostics := first.2.diagnostics ++ ds }) := by
  intro first
  induction n with
  | zero => exact evaluate_evaluate true w
  | succ n ih =>
    obtain ⟨ds, hds⟩ := ih
    obtain ⟨ds', hds'⟩ := evaluate_evaluate true (evaluateTimes (n + 1) w).2
    have hlast : evaluateTimes (n + 3) w = (evaluateTimes (n + 2) w).2.evaluate true := rfl
    have hbefore : (evaluateTimes (n + 1) w).2.evaluate true = evaluateTimes (n + 2) w := rfl
    rw [hbefore, ← hlast, hds] at hds'
    exact ⟨ds ++ ds', by simp [hds']⟩

theorem drawingText_taken_back (w : Worksheet) (ds : List Diagnostic) :
    { w with overflowed := w.overflowed && w.valid, diagnostics := ds }.drawingText =
      w.drawingText := by
  cases hvalid : w.valid <;> simp [drawingText, drawing?, hvalid]

/-- What stays of a worksheet while it is evaluated again: diagnostics only come to it. -/
structure Keeps (first last : Worksheet) : Prop where
  root : last.root = first.root
  valid : last.valid = first.valid
  evaluated : last.evaluated = first.evaluated
  drawingText : last.drawingText = first.drawingText
  diagnostics : first.diagnostics <+: last.diagnostics

/-- All answers but two stay as the first evaluation left them, and so do those two, unless it found
both an overflow and a zero divisor: then every later evaluation takes the overflow back. -/
theorem evaluateTimes_succ_ofText (input : String) (n : Nat) :
    (evaluateTimes (n + 1) (ofText input)).1 = (evaluateTimes 1 (ofText input)).1 ∧
      Keeps (evaluateTimes 1 (ofText input)).2 (evaluateTimes (n + 1) (ofText input)).2 ∧
      (¬((evaluateTimes 1 (ofText input)).2.overflowed = true ∧
          (evaluateTimes 1 (ofText input)).2.valid = false) →
        (evaluateTimes (n + 1) (ofText input)).2.overflowed =
            (evaluateTimes 1 (ofText input)).2.overflowed ∧
          (evaluateTimes (n + 1) (ofText input)).2.instruct.1 =
            (evaluateTimes 1 (ofText input)).2.instruct.1) ∧
      (0 < n → (evaluateTimes 1 (ofText input)).2.overflowed = true →
        (evaluateTimes 1 (ofText input)).2.valid = false →
        (evaluateTimes (n + 1) (ofText input)).2.overflowed = false ∧
          (evaluateTimes 1 (ofText input)).2.instruct.1 = overflowText ∧
          (evaluateTimes (n + 1) (ofText input)).2.instruct.1 = invalidText) := by
  cases n with
  | zero =>
    exact ⟨rfl, ⟨rfl, rfl, rfl, rfl, List.prefix_refl _⟩, fun _ => ⟨rfl, rfl⟩,
      fun h => absurd h (Nat.lt_irrefl 0)⟩
  | succ n =>
    obtain ⟨ds, hds⟩ := evaluateTimes_succ_succ n (ofText input)
    have hfirst := instruct_of_settled (settled_evaluateTimes 0 (ofText input))
    have hlast := instruct_of_settled (settled_evaluateTimes (n + 1) (ofText input))
    rw [Nat.zero_add] at hfirst
    rw [hds] at hlast ⊢
    generalize evaluateTimes 1 (ofText input) = first at *
    refine ⟨rfl, ⟨rfl, rfl, rfl, drawingText_taken_back _ _, List.prefix_append _ _⟩, ?_, ?_⟩
    · intro hboth
      have hflag : (first.2.overflowed && first.2.valid) = first.2.overflowed := by
        cases hvalid : first.2.valid with
        | false => simpa [hvalid] using hboth
        | true => exact Bool.and_true _
      refine ⟨hflag, ?_⟩
      rw [hlast, hfirst, hflag]
      rfl
    · intro _ hoverflowed hinvalid
      rw [hlast, hfirst]
      simp [hoverflowed, hinvalid]

/-- In `(2147483647+1)+1/0` the sum is too big and the quotient has no value. -/
theorem evaluateTimes_succ_of_overflow_and_zero_divisor :
    let first := evaluateTimes 1 (ofText "(2147483647+1)+1/0")
    let last := evaluateTimes 3 (ofText "(2147483647+1)+1/0")
    (first.2.overflowed = true ∧ first.2.valid = false) ∧
      last.2.overflowed = false ∧ first.2.instruct.1 = overflowText ∧
        last.2.instruct.1 = invalidText := by
  intro first last
  have hoverflowed : first.2.overflowed = true := by decide
  have hinvalid : first.2.valid = false := by decide
  obtain ⟨-, -, -, htaken⟩ := evaluateTimes_succ_ofText "(2147483647+1)+1/0" 2
  exact ⟨⟨hoverflowed, hinvalid⟩, htaken (by decide) hoverflowed hinvalid⟩

theorem not_forall_overflowed_evaluateTimes :
    ¬∀ (input : String) (n : Nat), 1 ≤ n →
      (evaluateTimes n (ofText input)).2.overflowed =
          (evaluateTimes 1 (ofText input)).2.overflowed ∧
        (evaluateTimes n (ofText input)).2.instruct.1 =
          (evaluateTimes 1 (ofText input)).2.instruct.1 := by
  intro h
  obtain ⟨hflag, -⟩ := h "(2147483647+1)+1/0" 2 (by decide)
  exact absurd hflag (by decide)

end Worksheet

end ArithTree
