import ArithTree.Proofs.Visits
import ArithTree.Proofs.WorksheetReading
import ArithTree.Proofs.ZeroDivisors

/-! Exchanged operands. The operands of sums and products may stand in either order: an operand that
is too big makes the operator too big wherever it stands, and as long as nothing is too big the two
operands are evaluated as if each were alone. Main statement: a tree and the same tree with operands
exchanged at any of its sums and products overflow together, and without an overflow they give the
same value, keep the same results at the same nodes and report the same, in another order. -/

namespace ArithTree

/-! ### Operators -/

namespace Operator

/-- The operands may be exchanged. -/
def commutes : Operator → Bool
  | add | mul => true
  | sub | div | pow | mod => false

variable {op : Operator}

theorem apply_comm (h : op.commutes = true) (a b : Int32) : op.apply a b = op.apply b a := by
  cases op with
  | add => exact congrArg Outcome.exact (Int.add_comm _ _)
  | mul => exact congrArg Outcome.exact (Int.mul_comm _ _)
  | sub => cases h
  | div => cases h
  | pow => cases h
  | mod => cases h

theorem zeroDivisor?_of_commutes (h : op.commutes = true) (b : Int32) :
    op.zeroDivisor? b = none := by
  by_contra hne
  obtain ⟨rfl | rfl, -⟩ := zeroDivisor?_ne_none_iff.1 hne
  · cases h
  · cases h

end Operator

/-! ### Trees -/

/-- The other operand. -/
def Side.other : Side → Side
  | left => right
  | right => left

/-- The choice among the nodes of an operand that a choice among the nodes of the tree makes. -/
def chosenBelow (chosen : List Side → Bool) (side : Side) : List Side → Bool :=
  fun path => chosen (side :: path)

namespace Expr

/-- The tree with its operands exchanged at the chosen nodes, as far as these are sums and
products. -/
def exchange (chosen : List Side → Bool) : Expr → Expr
  | literal v => literal v
  | binary op left right result =>
    let left := left.exchange (chosenBelow chosen .left)
    let right := right.exchange (chosenBelow chosen .right)
    if chosen [] && op.commutes then binary op right left result
    else binary op left right result

/-- The way to a node after the exchange. -/
def exchangedPath (chosen : List Side → Bool) : Expr → List Side → List Side
  | _, [] => []
  | literal _, side :: path => side :: path
  | binary op left right _, side :: path =>
    let rest := match side with
      | .left => left.exchangedPath (chosenBelow chosen .left) path
      | .right => right.exchangedPath (chosenBelow chosen .right) path
    (if chosen [] && op.commutes then side.other else side) :: rest

variable {chosen : List Side → Bool} {op : Operator} {left right : Expr}

theorem exchange_binary_of_exchanged (h : (chosen [] && op.commutes) = true) (result : Int32) :
    (binary op left right result).exchange chosen =
      binary op (right.exchange (chosenBelow chosen .right))
        (left.exchange (chosenBelow chosen .left)) result := if_pos h

theorem exchange_binary_of_kept (h : (chosen [] && op.commutes) = false) (result : Int32) :
    (binary op left right result).exchange chosen =
      binary op (left.exchange (chosenBelow chosen .left))
        (right.exchange (chosenBelow chosen .right)) result := if_neg (by simp [h])

@[simp] theorem value_exchange (chosen : List Side → Bool) (e : Expr) :
    (e.exchange chosen).value = e.value := by
  cases e with
  | literal v => rfl
  | binary op left right result =>
    rw [exchange]
    split <;> rfl

/-- The exchange moves nodes with everything below them, where it goes on. -/
theorem at?_exchange (chosen : List Side → Bool) (e : Expr) (path : List Side) :
    (e.exchange chosen).at? (e.exchangedPath chosen path) =
      (e.at? path).map (exchange fun rest => chosen (path ++ rest)) := by
  induction e generalizing chosen path with
  | literal v => cases path <;> simp [exchangedPath, exchange, at?]
  | binary op left right result ihl ihr =>
    cases path with
    | nil => simp [exchangedPath]
    | cons side path =>
      cases hswap : chosen [] && op.commutes <;> cases side <;>
        simp [exchange, exchangedPath, hswap, at?, Side.other, ihl, ihr, chosenBelow]

theorem value_at?_exchange (chosen : List Side → Bool) (e : Expr) (path : List Side) :
    ((e.exchange chosen).at? (e.exchangedPath chosen path)).map value = (e.at? path).map value := by
  simp [at?_exchange, Function.comp_def]

theorem exchangedPath_cleared (chosen : List Side → Bool) (e : Expr) (path : List Side) :
    e.cleared.exchangedPath chosen path = e.exchangedPath chosen path := by
  induction e generalizing chosen path with
  | literal v => cases path <;> rfl
  | binary op left right result ihl ihr =>
    cases path with
    | nil => rfl
    | cons side path => cases side <;> simp [cleared, node, exchangedPath, ihl, ihr]

/-- The same is reported of the nodes, in another order. -/
theorem perm_zeroDivisors_exchange (chosen : List Side → Bool) (e : Expr) :
    ((e.exchange chosen).operatorNodes.filterMap zeroDivisor?).Perm
      (e.operatorNodes.filterMap zeroDivisor?) := by
  induction e generalizing chosen with
  | literal v => exact .refl _
  | binary op left right result ihl ihr =>
    have hl := ihl (chosenBelow chosen .left)
    have hr := ihr (chosenBelow chosen .right)
    cases hswap : chosen [] && op.commutes with
    | true =>
      have hop := (Bool.and_eq_true_iff.1 hswap).2
      simp only [exchange_binary_of_exchanged hswap, filterMap_operatorNodes_binary, zeroDivisor?,
        Operator.zeroDivisor?_of_commutes hop, Option.toList_none, List.append_nil]
      exact (hr.append hl).trans List.perm_append_comm
    | false =>
      simp only [exchange_binary_of_kept hswap, filterMap_operatorNodes_binary, zeroDivisor?,
        value_exchange]
      exact (hl.append hr).append_right _

end Expr

/-! ### Passes -/

namespace Pass

variable {p : Pass} {op : Operator} {left right e : Expr} {kept : Int32}

theorem combine_comm (h : op.commutes = true) (p : Pass) (a b : Int32) :
    p.combine op a b = p.combine op b a := by
  unfold combine
  rw [Operator.apply_comm h, Bool.or_comm]

/-- Where the left operand does not overflow, the right one is evaluated as if it were alone. -/
theorem evaluate_right_apart (h : p.overflowed = false)
    (hleft : (p.evaluate left).pass.overflowed = false) (right : Expr) :
    ((p.evaluate left).pass.evaluate right).value = (p.evaluate right).value ∧
      ((p.evaluate left).pass.evaluate right).tree = (p.evaluate right).tree ∧
      ((p.evaluate left).pass.evaluate right).pass.overflowed =
        (p.evaluate right).pass.overflowed :=
  evaluate_congr (hleft.trans h.symm) rfl

/-- Whether there is an overflow shows from the operands evaluated apart. -/
theorem overflowed_binary_iff (h : p.overflowed = false) :
    (p.evaluate (.binary op left right kept)).pass.overflowed = true ↔
      (p.evaluate left).pass.overflowed = true ∨ (p.evaluate right).pass.overflowed = true ∨
        (p.combine op (p.evaluate left).value (p.evaluate right).value).2.overflowed = true := by
  rw [evaluate_binary]
  simp only
  -- With the flag up at an operand both sides hold; else nothing that came before is seen.
  cases hleft : (p.evaluate left).pass.overflowed with
  | true => simp [overflowed_combine (overflowed_evaluate hleft)]
  | false =>
    obtain ⟨hvalue, -, hflag⟩ := evaluate_right_apart h hleft right
    cases hright : ((p.evaluate left).pass.evaluate right).pass.overflowed with
    | true => simp [overflowed_combine hright, ← hflag, hright]
    | false =>
      rw [hvalue, (combine_congr (hright.trans h.symm)).2, ← hflag, hright]
      simp

theorem operands_fit (h : p.overflowed = false)
    (hfits : (p.evaluate (.binary op left right kept)).pass.overflowed = false) :
    (p.evaluate left).pass.overflowed = false ∧ (p.evaluate right).pass.overflowed = false := by
  rw [← Bool.not_eq_true, overflowed_binary_iff h, not_or, not_or, Bool.not_eq_true,
    Bool.not_eq_true] at hfits
  exact ⟨hfits.1, hfits.2.1⟩

/-- Without an overflow the tree is put together from the operands evaluated apart. -/
theorem tree_binary_of_fits (h : p.overflowed = false)
    (hfits : (p.evaluate (.binary op left right kept)).pass.overflowed = false) :
    (p.evaluate (.binary op left right kept)).tree =
      .binary op (p.evaluate left).tree (p.evaluate right).tree
        (p.combine op (p.evaluate left).value (p.evaluate right).value).1 := by
  obtain ⟨hleft, hright⟩ := not_overflowed_operands hfits
  obtain ⟨hvalue, htree, -⟩ := evaluate_right_apart h hleft right
  rw [evaluate_binary]
  simp only [hvalue, htree, (combine_congr (hright.trans h.symm)).1]

/-- What the exchange leaves of an evaluation: the flag, and without an overflow the results at
their nodes. -/
structure Follows (p : Pass) (chosen : List Side → Bool) (e : Expr) : Prop where
  overflowed : (p.evaluate (e.exchange chosen)).pass.overflowed = (p.evaluate e).pass.overflowed
  tree : (p.evaluate e).pass.overflowed = false →
    (p.evaluate (e.exchange chosen)).tree = (p.evaluate e).tree.exchange chosen

theorem Follows.value {chosen : List Side → Bool} (h : p.Follows chosen e)
    (hfits : (p.evaluate e).pass.overflowed = false) :
    (p.evaluate (e.exchange chosen)).value = (p.evaluate e).value := by
  rw [← value_tree_evaluate, h.tree hfits, Expr.value_exchange, value_tree_evaluate]

/-- An exchange below an operator does not change whether it overflows. -/
theorem Follows.overflowed_binary {inLeft inRight : List Side → Bool} (h : p.overflowed = false)
    (hl : p.Follows inLeft left) (hr : p.Follows inRight right) (op : Operator) (kept : Int32) :
    (p.evaluate (.binary op (left.exchange inLeft) (right.exchange inRight) kept)).pass.overflowed =
      (p.evaluate (.binary op left right kept)).pass.overflowed := by
  rw [Bool.eq_iff_iff, overflowed_binary_iff h, overflowed_binary_iff h, hl.overflowed,
    hr.overflowed]
  cases hleft : (p.evaluate left).pass.overflowed with
  | true => simp
  | false =>
    cases hright : (p.evaluate right).pass.overflowed with
    | true => simp
    | false => rw [hl.value hleft, hr.value hright]

theorem overflowed_binary_comm (h : p.overflowed = false) (hop : op.commutes = true) :
    (p.evaluate (.binary op right left kept)).pass.overflowed =
      (p.evaluate (.binary op left right kept)).pass.overflowed := by
  rw [Bool.eq_iff_iff, overflowed_binary_iff h, overflowed_binary_iff h, combine_comm hop]
  exact or_left_comm

theorem follows_exchange (h : p.overflowed = false) (chosen : List Side → Bool) (e : Expr) :
    p.Follows chosen e := by
  induction e generalizing chosen with
  | literal v => exact ⟨rfl, fun _ => rfl⟩
  | binary op left right kept ihl ihr =>
    have hl := ihl (chosenBelow chosen .left)
    have hr := ihr (chosenBelow chosen .right)
    have hbelow := hl.overflowed_binary h hr op kept
    -- The exchange at the root comes after those below it.
    cases hswap : chosen [] && op.commutes with
    | false =>
      refine ⟨by rw [Expr.exchange_binary_of_kept hswap, hbelow], fun hfits => ?_⟩
      obtain ⟨hleft, hright⟩ := operands_fit h hfits
      rw [tree_binary_of_fits h hfits, Expr.exchange_binary_of_kept hswap,
        Expr.exchange_binary_of_kept hswap, tree_binary_of_fits h (hbelow.trans hfits),
        hl.tree hleft, hr.tree hright, hl.value hleft, hr.value hright]
    | true =>
      have hop : op.commutes = true := (Bool.and_eq_true_iff.1 hswap).2
      have hcomm := (overflowed_binary_comm h hop).trans hbelow
      refine ⟨by rw [Expr.exchange_binary_of_exchanged hswap, hcomm], fun hfits => ?_⟩
      obtain ⟨hleft, hright⟩ := operands_fit h hfits
      rw [tree_binary_of_fits h hfits, Expr.exchange_binary_of_exchanged hswap,
        Expr.exchange_binary_of_exchanged hswap, tree_binary_of_fits h (hcomm.trans hfits),
        hl.tree hleft, hr.tree hright, hl.value hleft, hr.value hright, combine_comm hop]

theorem exchangedPath_tree_evaluate (p : Pass) (chosen : List Side → Bool) (e : Expr)
    (path : List Side) :
    (p.evaluate e).tree.exchangedPath chosen path = e.exchangedPath chosen path := by
  rw [← Expr.exchangedPath_cleared, cleared_tree_evaluate, Expr.exchangedPath_cleared]

theorem perm_diagnostics_exchange (h : p.overflowed = false)
    (hfits : (p.evaluate e).pass.overflowed = false) (chosen : List Side → Bool) :
    (p.evaluate (e.exchange chosen)).pass.diagnostics.Perm (p.evaluate e).pass.diagnostics := by
  have hfollows := follows_exchange h chosen e
  rw [diagnostics_evaluate_of_fits hfits,
    diagnostics_evaluate_of_fits (hfollows.overflowed.trans hfits), hfollows.tree hfits]
  exact (Expr.perm_zeroDivisors_exchange chosen _).append_left _

theorem isValid_exchange (h : p.overflowed = false)
    (hfits : (p.evaluate e).pass.overflowed = false) (chosen : List Side → Bool) :
    (p.evaluate (e.exchange chosen)).pass.isValid = (p.evaluate e).pass.isValid := by
  rw [isValid, isValid, (perm_diagnostics_exchange h hfits chosen).any_eq]

end Pass

/-! ### Worksheets -/

namespace Worksheet

variable {w w' : Worksheet} {root : Expr} {chosen : List Side → Bool}

theorem valid_of_root {input : String} (h : (ofText input).root = some root) :
    (ofText input).valid = true := by
  obtain ⟨written, hread⟩ := exists_reading_of_root h
  exact valid_ofText_iff.2 ⟨_, hread⟩

theorem fst_evaluate_exchange (reportsOverflow : Bool) (hvalid : w.valid = true)
    (hvalid' : w'.valid = true) (hroot : w.root = some root)
    (hroot' : w'.root = some (root.exchange chosen)) :
    (w'.evaluate reportsOverflow).1 = (w.evaluate reportsOverflow).1 := by
  have hstart : (Pass.start reportsOverflow).overflowed = false := rfl
  have hfollows := Pass.follows_exchange hstart chosen root
  simp only [evaluate, hvalid, hvalid', hroot, hroot', if_true, hfollows.overflowed]
  cases hfits : ((Pass.start reportsOverflow).evaluate root).pass.overflowed with
  | true => simp
  | false => rw [Pass.isValid_exchange hstart hfits, hfollows.value hfits]

end Worksheet

/-- A tree and the same tree with operands exchanged at any of its sums and products overflow
together. Without an overflow they give the same value, are valid together, keep the same results
and report the same, each report as often as before. So texts of the two are evaluated to the same
number. -/
theorem Pass.evaluate_exchange (chosen : List Side → Bool) (e : Expr) :
    (∀ reportsOverflow,
      let done := (start reportsOverflow).evaluate e
      let done' := (start reportsOverflow).evaluate (e.exchange chosen)
      done'.pass.overflowed = done.pass.overflowed ∧
        (done.pass.overflowed = false →
          done'.value = done.value ∧ done'.pass.isValid = done.pass.isValid ∧
            done'.tree = done.tree.exchange chosen ∧
            (∀ path, (done'.tree.at? (e.exchangedPath chosen path)).map Expr.value =
              (done.tree.at? path).map Expr.value) ∧
            done'.pass.diagnostics.Perm done.pass.diagnostics)) ∧
    ∀ input input', (Worksheet.ofText input).root = some e →
      (Worksheet.ofText input').root = some (e.exchange chosen) →
      ((Worksheet.ofText input').evaluate true).1 = ((Worksheet.ofText input).evaluate true).1 := by
  constructor
  · intro reportsOverflow done done'
    have hstart : (start reportsOverflow).overflowed = false := rfl
    have hfollows := follows_exchange hstart chosen e
    refine ⟨hfollows.overflowed, fun hfits => ?_⟩
    have htree : done'.tree = done.tree.exchange chosen := hfollows.tree hfits
    refine ⟨hfollows.value hfits, isValid_exchange hstart hfits _, htree, fun path => ?_,
      perm_diagnostics_exchange hstart hfits _⟩
    rw [htree, ← exchangedPath_tree_evaluate (start reportsOverflow)]
    exact Expr.value_at?_exchange chosen done.tree path
  · intro input input' hroot hroot'
    exact Worksheet.fst_evaluate_exchange true (Worksheet.valid_of_root hroot)
      (Worksheet.valid_of_root hroot') hroot hroot'

/-- Two zero divisors are reported in the other order, and an overflow comes from the other side. -/
theorem Pass.evaluate_exchange_of_zero_divisors_and_overflow :
    let remainder : Expr := .node .mod (.node .sub (.literal 3) (.literal 4)) (.literal 0)
    let quotient : Expr := .node .div (.literal 1) (.node .mul (.literal 2) (.literal 0))
    let quotient' : Expr := .node .div (.literal 1) (.node .mul (.literal 0) (.literal 2))
    let e : Expr := .node .add remainder quotient
    let e' : Expr := .node .add quotient' remainder
    let sum : Expr := .node .mul (.node .add (.literal 2147483647) (.literal 1)) (.literal 5)
    ((e.exchange fun _ => true) = e' ∧ ((start true).evaluate e).pass.overflowed = false ∧
        (Worksheet.ofText "(2147483647+1)*5").root = some sum ∧
        (Worksheet.ofText "5*(2147483647+1)").root = some (sum.exchange (· == []))) ∧
      ((start true).evaluate e').pass.diagnostics.Perm ((start true).evaluate e).pass.diagnostics ∧
      ((start true).evaluate e).pass.diagnostics = [.moduloByZero, .divisionByZero] ∧
      ((start true).evaluate e').pass.diagnostics = [.divisionByZero, .moduloByZero] ∧
      ((Worksheet.ofText "5*(2147483647+1)").evaluate true).1 =
        ((Worksheet.ofText "(2147483647+1)*5").evaluate true).1 := by
  intro remainder quotient quotient' e e' sum
  have hexchange : (e.exchange fun _ => true) = e' := by decide
  have hfits : ((start true).evaluate e).pass.overflowed = false := by decide
  have hroot : (Worksheet.ofText "(2147483647+1)*5").root = some sum := by decide
  have hroot' : (Worksheet.ofText "5*(2147483647+1)").root = some (sum.exchange (· == [])) := by
    decide
  obtain ⟨-, -, -, -, hreports⟩ := ((evaluate_exchange (fun _ => true) e).1 true).2 hfits
  rw [hexchange] at hreports
  exact ⟨⟨hexchange, hfits, hroot, hroot'⟩, hreports, by decide, by decide,
    (evaluate_exchange (· == []) sum).2 _ _ hroot hroot'⟩

end ArithTree
