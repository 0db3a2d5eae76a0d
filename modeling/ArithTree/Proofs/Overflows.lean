import ArithTree.Proofs.EvaluationReports
import ArithTree.Proofs.Visits

/-! Overflows on their way to the root. An operator whose result is too big keeps the ceiling, and
raises a flag that stays raised; so the next operator up has an operand at the ceiling and is not
applied, it keeps the ceiling itself, and so on up to the root. Main statement: no operator above an
overflow is applied, all of them keep the ceiling, and overflows are reported once each, in the
order of the word list that has operators last, and at nodes of which none is below another. -/

namespace ArithTree

/-! ### Two ways from the root -/

/-- The first node is further up on the way to the second one. -/
def IsAbove (a b : List Side) : Prop := a <+: b ∧ a ≠ b

/-- The ways part, and there the first one goes left. -/
def IsLeftOf (a b : List Side) : Prop :=
  ∃ stem rest rest', a = stem ++ .left :: rest ∧ b = stem ++ .right :: rest'

/-- The first node comes before the second one where operators are after their operands. -/
def Precedes (a b : List Side) : Prop := IsAbove b a ∨ IsLeftOf a b

section Ways

variable {a b : List Side} {side side' : Side}

theorem isAbove_cons : IsAbove (side :: a) (side' :: b) ↔ side = side' ∧ IsAbove a b := by
  unfold IsAbove
  rw [List.cons_prefix_cons, ne_eq, List.cons.injEq]
  grind

theorem nil_isAbove_cons : IsAbove [] (side :: a) := ⟨List.nil_prefix, (List.cons_ne_nil _ _).symm⟩

theorem not_isAbove_nil : ¬IsAbove a [] := fun h => h.2 (List.prefix_nil.1 h.1)

theorem IsLeftOf.cons (side : Side) (h : IsLeftOf a b) : IsLeftOf (side :: a) (side :: b) := by
  obtain ⟨stem, rest, rest', rfl, rfl⟩ := h
  exact ⟨side :: stem, rest, rest', rfl, rfl⟩

theorem IsLeftOf.not_prefix (h : IsLeftOf a b) : ¬a <+: b ∧ ¬b <+: a := by
  obtain ⟨stem, rest, rest', rfl, rfl⟩ := h
  simp [List.prefix_append_right_inj, List.cons_prefix_cons]

theorem Precedes.cons (side : Side) (h : Precedes a b) : Precedes (side :: a) (side :: b) :=
  h.imp (fun habove => isAbove_cons.2 ⟨rfl, habove⟩) (.cons side)

end Ways

/-! ### Reports of overflow -/

def Diagnostic.isOverflow : Diagnostic → Bool
  | overflow _ => true
  | divisionByZero | moduloByZero | invalidExpression => false

namespace Visit

theorem apply_of_outcome? {v : Visit} {outcome : Outcome} (h : v.outcome? = some outcome) :
    v.op.apply v.left v.right = outcome := by
  rw [outcome?, Option.ite_none_left_eq_some] at h
  exact Option.some.inj h.2

/-- Where overflows are reported, a visit that overflows reports one, and no other visit does. -/
theorem filter_reports {v : Visit} (h : v.before.reportsOverflow = true) :
    v.reports.filter Diagnostic.isOverflow = if v.Overflows then [.overflow v.op] else [] := by
  by_cases hover : v.Overflows
  · rw [if_pos hover, reports, show v.outcome? = some .tooBig from hover]
    simp [h, Diagnostic.isOverflow]
  · rw [if_neg hover, reports]
    split
    · next hbig => exact absurd hbig hover
    · next cause hcause =>
      rcases Operator.cause_of_apply_eq_undefined (apply_of_outcome? hcause) with rfl | rfl
      · rfl
      · rfl
    · rfl

theorem filter_flatMap_reports {vs : List Visit}
    (h : ∀ v ∈ vs, v.before.reportsOverflow = true) :
    (vs.flatMap reports).filter Diagnostic.isOverflow =
      (vs.filter fun v => v.Overflows).map fun v => .overflow v.op := by
  induction vs with
  | nil => rfl
  | cons v vs ih =>
    obtain ⟨hv, hvs⟩ := List.forall_mem_cons.1 h
    rw [List.flatMap_cons, List.filter_append, filter_reports hv, ih hvs, List.filter_cons]
    by_cases hover : v.Overflows <;> simp [hover]

/-- What an overflow means for its node and for those above it. -/
structure ReachesRoot (v : Visit) (visits : List Visit) (tree : Expr) : Prop where
  raises : v.after = v.before.overflow v.op
  keeps : ∀ path, path <+: v.path →
    ∃ op left right, tree.at? path = some (.binary op left right Word32.ceiling)
  silences : ∀ u ∈ visits, IsAbove u.path v.path → u.outcome? = none ∧ u.after = u.before

end Visit

namespace Pass

/-- The visits are the run of a pass over a tree, and they lead to all its operators, to each after
its operands. -/
structure Walk (p : Pass) (e : Expr) (visits : List Visit) : Prop where
  run : Run p visits (p.evaluate e).pass
  operators : visits.map (·.op) = e.postfixWords.filterMap Operator.ofSymbol?
  ordered : visits.Pairwise fun u v => Precedes u.path v.path
  arrives : ∀ v ∈ visits, ∃ left right,
    (p.evaluate e).tree.at? v.path = some (.binary v.op left right v.result) ∧
      left.value = v.left ∧ right.value = v.right
  complete : ∀ path op left right kept,
    (p.evaluate e).tree.at? path = some (.binary op left right kept) → ∃ v ∈ visits, v.path = path

variable {p : Pass} {e : Expr} {op : Operator} {left right : Expr}

theorem pairwise_precedes_visits (p : Pass) (e : Expr) :
    (p.visits e).Pairwise fun u v => Precedes u.path v.path := by
  induction e generalizing p with
  | literal v => exact .nil
  | binary op left right kept ihl ihr =>
    rw [visits, List.pairwise_append, List.pairwise_append, List.pairwise_map, List.pairwise_map]
    refine ⟨⟨(ihl p).imp (.cons .left), (ihr _).imp (.cons .right), ?_⟩, by simp, ?_⟩
    · simp only [List.forall_mem_map]
      intro u hu v hv
      exact .inr ⟨[], u.path, v.path, rfl, rfl⟩
    · simp only [List.forall_mem_append, List.forall_mem_map, List.forall_mem_singleton]
      exact ⟨fun u hu => .inl nil_isAbove_cons, fun u hu => .inl nil_isAbove_cons⟩

theorem walk_visits (p : Pass) (e : Expr) : Walk p e (p.visits e) where
  run := run_visits p e
  operators := map_op_visits p e
  ordered := pairwise_precedes_visits p e
  arrives := at?_of_mem_visits p e
  complete := fun path op left right kept hnode => by
    obtain ⟨v, hv, hpath, -⟩ := exists_visit_of_at? hnode
    exact ⟨v, hv, hpath⟩

/-! ### The way up -/

/-- One step of the way up: the operator over an overflow is not applied. -/
theorem outcome?_lastVisit
    (h : (∃ v ∈ p.visits left, v.Overflows) ∧ (p.evaluate left).value = Word32.ceiling ∨
      (∃ v ∈ (p.evaluate left).pass.visits right, v.Overflows) ∧
        ((p.evaluate left).pass.evaluate right).value = Word32.ceiling) :
    (p.lastVisit op left right).outcome? = none := by
  refine Visit.outcome?_eq_none ?_ (h.imp And.right And.right)
  refine (run_visits _ right).overflowed_iff.2 (h.imp ?_ And.left)
  exact fun hleft => (run_visits p left).overflowed_iff.2 (.inr hleft.1)

/-- The whole way up: an overflow anywhere in the tree gives the ceiling at the root. -/
theorem value_evaluate_of_overflows (h : ∃ v ∈ p.visits e, v.Overflows) :
    (p.evaluate e).value = Word32.ceiling := by
  induction e generalizing p with
  | literal v => simp [visits] at h
  | binary op left right kept ihl ihr =>
    rw [evaluate_binary_eq_lastVisit]
    rcases exists_mem_visits_binary.1 h with hleft | hright | hroot
    · exact Visit.result_of_outcome?_eq_none (outcome?_lastVisit (.inl ⟨hleft, ihl hleft⟩))
    · exact Visit.result_of_outcome?_eq_none (outcome?_lastVisit (.inr ⟨hright, ihr hright⟩))
    · exact Visit.result_of_overflows hroot

/-- Every operator from an overflow up keeps the ceiling. -/
theorem kept_of_overflows (p : Pass) (e : Expr) :
    ∀ v ∈ p.visits e, v.Overflows → ∀ path, path <+: v.path →
      ∃ op left right,
        (p.evaluate e).tree.at? path = some (.binary op left right Word32.ceiling) := by
  induction e generalizing p with
  | literal v => simp [visits]
  | binary op left right kept ihl ihr =>
    -- The root keeps the value of the tree, wherever in the tree the overflow is.
    have hroot : ∀ v ∈ p.visits (.binary op left right kept), v.Overflows →
        ∃ op' left' right', (p.evaluate (.binary op left right kept)).tree.at? [] =
          some (.binary op' left' right' Word32.ceiling) := fun v hv hover => by
      rw [Expr.at?_nil, ← value_evaluate_of_overflows ⟨v, hv, hover⟩]
      exact ⟨op, _, _, rfl⟩
    rw [forall_mem_visits_binary] at hroot ⊢
    obtain ⟨hrootl, hrootr, hrootv⟩ := hroot
    refine ⟨fun v hv hover path hpath => ?_, fun v hv hover path hpath => ?_,
      fun hover path hpath => ?_⟩
    · cases path with
      | nil => exact hrootl v hv hover
      | cons side path =>
        obtain ⟨rfl, hrest⟩ := List.cons_prefix_cons.1 hpath
        exact ihl p v hv hover path hrest
    · cases path with
      | nil => exact hrootr v hv hover
      | cons side path =>
        obtain ⟨rfl, hrest⟩ := List.cons_prefix_cons.1 hpath
        exact ihr _ v hv hover path hrest
    · obtain rfl := List.prefix_nil.1 hpath
      exact hrootv hover

/-- No operator above an overflow is applied. -/
theorem outcome?_of_overflows (p : Pass) (e : Expr) :
    ∀ v ∈ p.visits e, v.Overflows → ∀ u ∈ p.visits e, IsAbove u.path v.path →
      u.outcome? = none := by
  induction e generalizing p with
  | literal v => simp [visits]
  | binary op left right kept ihl ihr =>
    -- An operator on the other side of the root is not above the overflow.
    refine forall_mem_visits_binary.2 ⟨fun v hv hover => ?_, fun v hv hover => ?_,
      fun hover u hu habove => absurd habove not_isAbove_nil⟩
    · have hleft : ∃ v ∈ p.visits left, v.Overflows := ⟨v, hv, hover⟩
      refine forall_mem_visits_binary.2 ⟨fun u hu habove => ?_, fun u hu habove => ?_, fun _ => ?_⟩
      · exact ihl p v hv hover u hu (isAbove_cons.1 habove).2
      · cases (isAbove_cons.1 habove).1
      · exact outcome?_lastVisit (.inl ⟨hleft, value_evaluate_of_overflows hleft⟩)
    · have hright : ∃ v ∈ (p.evaluate left).pass.visits right, v.Overflows := ⟨v, hv, hover⟩
      refine forall_mem_visits_binary.2 ⟨fun u hu habove => ?_, fun u hu habove => ?_, fun _ => ?_⟩
      · cases (isAbove_cons.1 habove).1
      · exact ihr _ v hv hover u hu (isAbove_cons.1 habove).2
      · exact outcome?_lastVisit (.inr ⟨hright, value_evaluate_of_overflows hright⟩)

theorem reachesRoot_of_overflows {v : Visit} (hv : v ∈ p.visits e) (h : v.Overflows) :
    v.ReachesRoot (p.visits e) (p.evaluate e).tree where
  raises := Visit.after_of_overflows h
  keeps := kept_of_overflows p e v hv h
  silences := fun u hu habove => by
    have hnone := outcome?_of_overflows p e v hv h u hu habove
    exact ⟨hnone, Visit.after_of_outcome?_eq_none hnone⟩

/-- Of two visits that overflow neither is above the other one. -/
theorem pairwise_not_prefix_of_overflows (p : Pass) (e : Expr) :
    ((p.visits e).filter fun v => v.Overflows).Pairwise fun u v =>
      ¬u.path <+: v.path ∧ ¬v.path <+: u.path := by
  refine ((pairwise_precedes_visits p e).filter _).imp_of_mem ?_
  intro u v hu hv hprecedes
  simp only [List.mem_filter, decide_eq_true_eq] at hu hv
  rcases hprecedes with habove | hleft
  · have hnone := outcome?_of_overflows p e u hu.1 hu.2 v hv.1 habove
    simp [Visit.Overflows, hnone] at hv
  · exact hleft.not_prefix

/-- A pass visits the operators of a tree one after the other, each after its operands. Where the
result is too big, the ceiling is kept from there up to the root and no operator above is applied.
So the flag comes with the ceiling at the root, no overflow is above another one, and where
overflows are reported each is reported once, in the order of the visits. -/
theorem overflow_reaches_root (reportsOverflow : Bool) (e : Expr) :
    let done := (start reportsOverflow).evaluate e
    let visits := (start reportsOverflow).visits e
    let raised := visits.filter fun v => v.Overflows
    Walk (start reportsOverflow) e visits ∧
      (∀ v ∈ raised, v.ReachesRoot visits done.tree) ∧
      (done.pass.overflowed = true ↔ raised ≠ []) ∧
      (done.pass.overflowed = true → done.value = Word32.ceiling) ∧
      (raised.Pairwise fun u v => ¬u.path <+: v.path ∧ ¬v.path <+: u.path) ∧
      (reportsOverflow = true →
        done.pass.diagnostics.filter Diagnostic.isOverflow =
            raised.map (fun v => .overflow v.op) ∧
          (done.pass.overflowed = true ↔
            ∃ op, Diagnostic.overflow op ∈ done.pass.diagnostics)) := by
  intro done visits raised
  have hrun : Run (start reportsOverflow) visits done.pass := run_visits _ e
  refine ⟨walk_visits _ e, ?_, ?_, value_eq_ceiling_of_raised rfl,
    pairwise_not_prefix_of_overflows _ e, ?_⟩
  · intro v hv
    simp only [raised, List.mem_filter, decide_eq_true_eq] at hv
    exact reachesRoot_of_overflows hv.1 hv.2
  · rw [hrun.overflowed_iff]
    simp [raised, start]
  · rintro rfl
    refine ⟨?_, accounted_start.evaluate.overflow⟩
    rw [hrun.diagnostics_eq]
    exact Visit.filter_flatMap_reports fun v hv => hrun.reportsOverflow_of_mem hv

/-- A sum and a product are too big; the zero that the sum is divided by goes unnoticed. -/
theorem overflow_reaches_root_of_sum_and_product :
    let sum : Expr := .node .add (.literal 2147483647) (.literal 1)
    let product : Expr := .node .mul (.literal 1073741824) (.literal 2)
    let e : Expr := .node .add (.node .div sum (.literal 0)) product
    let done := (start true).evaluate e
    let raised := ((start true).visits e).filter fun v => v.Overflows
    raised.map (·.path) = [[.left, .left], [.right]] ∧
      done.pass.overflowed = true ∧ done.value = Word32.ceiling ∧
      done.pass.diagnostics.filter Diagnostic.isOverflow = raised.map (fun v => .overflow v.op) ∧
      done.pass.diagnostics = [.overflow .add, .overflow .mul] := by
  intro sum product e
  obtain ⟨-, -, -, hvalue, -, hreports⟩ := overflow_reaches_root true e
  have hflag : ((start true).evaluate e).pass.overflowed = true := by decide
  exact ⟨by decide, hflag, hvalue hflag, (hreports rfl).1, by decide⟩

end Pass

end ArithTree
