import Mathlib.Logic.Basic
import ArithTree.Proofs.Passes

/-! The operators that a pass comes to, one after the other. A visit is a pass at an operator whose
operands have been evaluated, with the way to that operator. A pass over a tree is a run of visits,
one for each operator node, in the order of the word list that has operators last. Proved: what the
visits report makes up the diagnostics, their overflows make up the flag, and each of them left its
operands, its operator and its result at the node that it was made to. -/

namespace ArithTree

/-! ### Ways through a tree -/

/-- An operand of an operator. -/
inductive Side where
  | left | right
  deriving DecidableEq

/-- The subtree to which a way from the root leads. -/
def Expr.at? : Expr → List Side → Option Expr
  | e, [] => some e
  | literal _, _ :: _ => none
  | binary _ left _ _, .left :: path => left.at? path
  | binary _ _ right _, .right :: path => right.at? path

@[simp] theorem Expr.at?_nil (e : Expr) : e.at? [] = some e := by
  cases e <;> rfl

/-- A pass at an operator, its operands evaluated. -/
structure Visit where
  path : List Side
  before : Pass
  op : Operator
  left : Int32
  right : Int32
  deriving DecidableEq

namespace Visit

/-- The same visit from one operator further up. -/
def under (side : Side) (v : Visit) : Visit := { v with path := side :: v.path }

/-- What the operator makes of its operands, if it is applied at all: after an overflow an operand
at the ceiling is enough to leave it out. -/
def outcome? (v : Visit) : Option Outcome :=
  if v.before.overflowed && (v.left == Word32.ceiling || v.right == Word32.ceiling) then none
  else some (v.op.apply v.left v.right)

/-- What is kept at the operator. -/
def result (v : Visit) : Int32 := (v.before.combine v.op v.left v.right).1

def after (v : Visit) : Pass := (v.before.combine v.op v.left v.right).2

/-- What is reported at the operator. -/
def reports (v : Visit) : List Diagnostic :=
  match v.outcome? with
  | some .tooBig => if v.before.reportsOverflow then [.overflow v.op] else []
  | some (.undefined cause) => [cause]
  | _ => []

/-- The operator was applied, and its result was too big. -/
def Overflows (v : Visit) : Prop := v.outcome? = some .tooBig

instance (v : Visit) : Decidable v.Overflows := inferInstanceAs (Decidable (_ = _))

variable {v : Visit}

@[simp] theorem path_under (side : Side) (v : Visit) : (v.under side).path = side :: v.path := rfl

@[simp] theorem overflows_under (side : Side) (v : Visit) :
    (v.under side).Overflows ↔ v.Overflows := Iff.rfl

theorem combine_eq (v : Visit) :
    v.before.combine v.op v.left v.right =
      match v.outcome? with
      | none => (Word32.ceiling, v.before)
      | some (.value result) => (result, v.before)
      | some .tooBig => (Word32.ceiling, v.before.overflow v.op)
      | some (.undefined cause) => (0, v.before.report cause) := by
  unfold Pass.combine outcome?
  split
  · rfl
  · cases v.op.apply v.left v.right <;> rfl

theorem diagnostics_after (v : Visit) :
    v.after.diagnostics = v.before.diagnostics ++ v.reports := by
  rw [after, combine_eq, reports]
  cases v.outcome? with
  | none => simp
  | some outcome =>
    cases outcome with
    | value result => simp
    | tooBig => exact v.before.diagnostics_overflow v.op
    | undefined cause => rfl

theorem overflowed_after (v : Visit) :
    v.after.overflowed = true ↔ v.before.overflowed = true ∨ v.Overflows := by
  rw [after, combine_eq, Overflows]
  cases v.outcome? with
  | none => simp
  | some outcome => cases outcome <;> simp

theorem reportsOverflow_after (v : Visit) :
    v.after.reportsOverflow = v.before.reportsOverflow := by
  rw [after, combine_eq]
  cases v.outcome? with
  | none => rfl
  | some outcome => cases outcome <;> simp

theorem result_of_overflows (h : v.Overflows) : v.result = Word32.ceiling := by
  rw [result, combine_eq, show v.outcome? = some .tooBig from h]

theorem after_of_overflows (h : v.Overflows) : v.after = v.before.overflow v.op := by
  rw [after, combine_eq, show v.outcome? = some .tooBig from h]

theorem outcome?_eq_none (hbefore : v.before.overflowed = true)
    (hceiling : v.left = Word32.ceiling ∨ v.right = Word32.ceiling) : v.outcome? = none := by
  rw [outcome?, if_pos]
  simpa [hbefore] using hceiling

theorem result_of_outcome?_eq_none (h : v.outcome? = none) : v.result = Word32.ceiling := by
  rw [result, combine_eq, h]

theorem after_of_outcome?_eq_none (h : v.outcome? = none) : v.after = v.before := by
  rw [after, combine_eq, h]

end Visit

/-! ### Runs -/

/-- A run of visits, each to the pass that the one before it left. -/
inductive Run : Pass → List Visit → Pass → Prop where
  | nil (p : Pass) : Run p [] p
  | cons {v : Visit} {vs : List Visit} {q : Pass} (rest : Run v.after vs q) :
    Run v.before (v :: vs) q

namespace Run

variable {p q m : Pass} {v : Visit} {vs ws : List Visit}

theorem append (h : Run p vs m) (h' : Run m ws q) : Run p (vs ++ ws) q := by
  induction h with
  | nil p => exact h'
  | cons rest ih => exact .cons (ih h')

/-- It does not matter to a run where in a tree it is made. -/
theorem under (side : Side) (h : Run p vs q) : Run p (vs.map (.under side)) q := by
  induction h with
  | nil p => exact .nil p
  | @cons v vs q rest ih => exact @cons (v.under side) _ q ih

/-- What the visits report is what the run reports. -/
theorem diagnostics_eq (h : Run p vs q) :
    q.diagnostics = p.diagnostics ++ vs.flatMap Visit.reports := by
  induction h with
  | nil p => simp
  | cons rest ih => rw [ih, Visit.diagnostics_after, List.flatMap_cons, List.append_assoc]

/-- The flag is raised where a visit overflows, and nowhere else. -/
theorem overflowed_iff (h : Run p vs q) :
    q.overflowed = true ↔ p.overflowed = true ∨ ∃ v ∈ vs, v.Overflows := by
  induction h with
  | nil p => simp
  | cons rest ih =>
    simp only [ih, Visit.overflowed_after, List.mem_cons, exists_eq_or_imp, or_assoc]

/-- A flag that is up at a visit stays up. -/
theorem overflowed_of_mem (h : Run p vs q) (hv : v ∈ vs) (hbefore : v.before.overflowed = true) :
    q.overflowed = true := by
  induction h with
  | nil p => simp at hv
  | cons rest ih =>
    rcases List.mem_cons.1 hv with rfl | hmem
    · exact rest.overflowed_iff.2 (.inl ((Visit.overflowed_after v).2 (.inl hbefore)))
    · exact ih hmem

/-- Whether overflows are reported is settled before the run. -/
theorem reportsOverflow_of_mem (h : Run p vs q) (hv : v ∈ vs) :
    v.before.reportsOverflow = p.reportsOverflow := by
  induction h with
  | nil p => simp at hv
  | cons rest ih =>
    rcases List.mem_cons.1 hv with rfl | hmem
    · rfl
    · rw [ih hmem, Visit.reportsOverflow_after]

end Run

namespace Pass

/-- The visit to the root, after those to its operands. -/
def lastVisit (p : Pass) (op : Operator) (left right : Expr) : Visit :=
  let l := p.evaluate left
  let r := l.pass.evaluate right
  ⟨[], r.pass, op, l.value, r.value⟩

/-- The visits of a pass, in the order in which they are made. -/
def visits (p : Pass) : Expr → List Visit
  | .literal _ => []
  | .binary op left right _ =>
    (p.visits left).map (.under .left) ++
      ((p.evaluate left).pass.visits right).map (.under .right) ++ [p.lastVisit op left right]

variable {p : Pass} {e : Expr} {v : Visit} {op : Operator} {left right : Expr} {kept : Int32}

@[simp] theorem path_lastVisit : (p.lastVisit op left right).path = [] := rfl

theorem evaluate_binary_eq_lastVisit :
    p.evaluate (.binary op left right kept) =
      ⟨(p.lastVisit op left right).result,
        .binary op (p.evaluate left).tree ((p.evaluate left).pass.evaluate right).tree
          (p.lastVisit op left right).result,
        (p.lastVisit op left right).after⟩ := rfl

theorem exists_mem_visits_binary {P : Visit → Prop} :
    (∃ v ∈ p.visits (.binary op left right kept), P v) ↔
      (∃ v ∈ p.visits left, P (v.under .left)) ∨
        (∃ v ∈ (p.evaluate left).pass.visits right, P (v.under .right)) ∨
        P (p.lastVisit op left right) := by
  simp only [visits, List.mem_append, List.mem_map, List.mem_singleton, or_and_right, exists_or,
    exists_exists_and_eq_and, exists_eq_left, or_assoc]

theorem forall_mem_visits_binary {P : Visit → Prop} :
    (∀ v ∈ p.visits (.binary op left right kept), P v) ↔
      (∀ v ∈ p.visits left, P (v.under .left)) ∧
        (∀ v ∈ (p.evaluate left).pass.visits right, P (v.under .right)) ∧
        P (p.lastVisit op left right) := by
  simp only [visits, List.forall_mem_append, List.forall_mem_map, List.forall_mem_singleton,
    and_assoc]

/-- The visits are made in the order in which the operators are written after their operands. -/
theorem map_op_visits (p : Pass) (e : Expr) :
    (p.visits e).map (·.op) = e.postfixWords.filterMap Operator.ofSymbol? := by
  induction e generalizing p with
  | literal v => simp [visits, Expr.postfixWords, Numeral.ofSymbol?_text]
  | binary op left right kept ihl ihr =>
    simp only [visits, Expr.postfixWords, List.map_append, List.map_map, List.filterMap_append,
      ← ihl p, ← ihr (p.evaluate left).pass]
    simp [Function.comp_def, Visit.under, lastVisit]

/-- A pass over a tree is the run of its visits. -/
theorem run_visits (p : Pass) (e : Expr) : Run p (p.visits e) (p.evaluate e).pass := by
  induction e generalizing p with
  | literal v => exact .nil p
  | binary op left right kept ihl ihr =>
    have hoperands := ((ihl p).under .left).append ((ihr (p.evaluate left).pass).under .right)
    exact hoperands.append (.cons (.nil (p.lastVisit op left right).after))

/-- As long as the flag is down every operator is applied, and none is too big. -/
theorem outcome?_of_not_overflowed (h : (p.evaluate e).pass.overflowed = false) {v : Visit}
    (hv : v ∈ p.visits e) :
    v.outcome? = some (v.op.apply v.left v.right) ∧ v.op.apply v.left v.right ≠ .tooBig := by
  have hbefore : v.before.overflowed = false := by
    rw [← Bool.not_eq_true]
    intro htrue
    simp [(run_visits p e).overflowed_of_mem hv htrue] at h
  have houtcome : v.outcome? = some (v.op.apply v.left v.right) := by
    simp [Visit.outcome?, hbefore]
  refine ⟨houtcome, fun hbig => ?_⟩
  have hoverflows : v.Overflows := houtcome.trans (congrArg some hbig)
  simp [(run_visits p e).overflowed_iff.2 (.inr ⟨v, hv, hoverflows⟩)] at h

/-- A visit leaves its operator and its result at the node it is made to, over its operands. -/
theorem at?_of_mem_visits (p : Pass) (e : Expr) :
    ∀ v ∈ p.visits e, ∃ left right,
      (p.evaluate e).tree.at? v.path = some (.binary v.op left right v.result) ∧
        left.value = v.left ∧ right.value = v.right := by
  induction e generalizing p with
  | literal v => simp [visits]
  | binary op left right kept ihl ihr =>
    rw [evaluate_binary_eq_lastVisit]
    refine forall_mem_visits_binary.2 ⟨ihl p, ihr _, ?_⟩
    exact ⟨(p.evaluate left).tree, ((p.evaluate left).pass.evaluate right).tree, rfl,
      value_tree_evaluate _ _, value_tree_evaluate _ _⟩

/-- Every operator has had its visit. -/
theorem exists_visit_of_at? {path : List Side}
    (h : (p.evaluate e).tree.at? path = some (.binary op left right kept)) :
    ∃ v ∈ p.visits e, v.path = path ∧ v.op = op ∧ v.left = left.value ∧ v.right = right.value ∧
      v.result = kept := by
  induction e generalizing p path with
  | literal v => cases path <;> simp [evaluate, Expr.at?] at h
  | binary op' left' right' kept' ihl ihr =>
    rw [evaluate_binary_eq_lastVisit] at h
    rw [exists_mem_visits_binary]
    cases path with
    | nil =>
      rw [Expr.at?_nil, Option.some.injEq, Expr.binary.injEq] at h
      obtain ⟨rfl, rfl, rfl, rfl⟩ := h
      exact .inr (.inr ⟨rfl, rfl, (value_tree_evaluate _ _).symm, (value_tree_evaluate _ _).symm,
        rfl⟩)
    | cons side path =>
      cases side with
      | left =>
        obtain ⟨v, hv, rfl, hrest⟩ := ihl h
        exact .inl ⟨v, hv, rfl, hrest⟩
      | right =>
        obtain ⟨v, hv, rfl, hrest⟩ := ihr h
        exact .inr (.inl ⟨v, hv, rfl, hrest⟩)

end Pass

end ArithTree
