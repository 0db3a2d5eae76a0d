import ArithTree.Proofs.Overflows

/-! Results in a tree and alone. Of the operators to the left of a subtree a pass brings nothing but
the flag. While it is down, the subtree keeps what it would keep by itself; once it is up, an
operand at the ceiling is taken for one that is too big, even where the ceiling is its proper value.
Main statement: an operator that does not overflow by itself keeps the value that it has alone,
unless there was an overflow to the left of it and a value at the ceiling stands below it; then it
keeps the ceiling. -/

namespace ArithTree

/-! ### Ways through a tree -/

section Ways

variable {a b : List Side} {side side' : Side}

theorem isLeftOf_cons :
    IsLeftOf (side :: a) (side' :: b) ↔
      side = .left ∧ side' = .right ∨ side = side' ∧ IsLeftOf a b := by
  constructor
  · rintro ⟨stem, rest, rest', ha, hb⟩
    cases stem with
    | nil => exact .inl ⟨(List.cons.inj ha).1, (List.cons.inj hb).1⟩
    | cons first stem =>
      obtain ⟨rfl, hrest⟩ := List.cons.inj ha
      obtain ⟨rfl, hrest'⟩ := List.cons.inj hb
      exact .inr ⟨rfl, stem, rest, rest', hrest, hrest'⟩
  · rintro (⟨rfl, rfl⟩ | ⟨rfl, h⟩)
    · exact ⟨[], a, b, rfl, rfl⟩
    · exact h.cons side

theorem not_isLeftOf_nil : ¬IsLeftOf a [] := by
  rintro ⟨stem, rest, rest', -, h⟩
  simp at h

theorem not_nil_isLeftOf : ¬IsLeftOf [] b := by
  rintro ⟨stem, rest, rest', h, -⟩
  simp at h

end Ways

namespace Expr

/-- Somewhere below the root stands a node whose value is the ceiling. -/
def CeilingBelow (e : Expr) : Prop :=
  ∃ side path s, e.at? (side :: path) = some s ∧ s.value = Word32.ceiling

/-- The value of the tree or of a node in it is the ceiling. -/
def ShowsCeiling (e : Expr) : Prop := e.value = Word32.ceiling ∨ e.CeilingBelow

variable {op : Operator} {left right : Expr} {result : Int32}

theorem showsCeiling_iff {e : Expr} :
    e.ShowsCeiling ↔ ∃ path s, e.at? path = some s ∧ s.value = Word32.ceiling := by
  constructor
  · rintro (h | ⟨side, path, s, h⟩)
    · exact ⟨[], e, e.at?_nil, h⟩
    · exact ⟨side :: path, s, h⟩
  · rintro ⟨path, s, hs, h⟩
    cases path with
    | nil =>
      rw [at?_nil, Option.some.injEq] at hs
      exact .inl (hs ▸ h)
    | cons side path => exact .inr ⟨side, path, s, hs, h⟩

theorem not_ceilingBelow_literal {v : Int32} : ¬(literal v).CeilingBelow := by
  rintro ⟨side, path, s, h, -⟩
  cases h

theorem showsCeiling_literal {v : Int32} : (literal v).ShowsCeiling ↔ v = Word32.ceiling := by
  simp [ShowsCeiling, not_ceilingBelow_literal, value]

theorem ceilingBelow_binary :
    (binary op left right result).CeilingBelow ↔ left.ShowsCeiling ∨ right.ShowsCeiling := by
  rw [showsCeiling_iff, showsCeiling_iff]
  constructor
  · rintro ⟨side, path, s, h⟩
    cases side with
    | left => exact .inl ⟨path, s, h⟩
    | right => exact .inr ⟨path, s, h⟩
  · rintro (⟨path, s, h⟩ | ⟨path, s, h⟩)
    · exact ⟨.left, path, s, h⟩
    · exact ⟨.right, path, s, h⟩

end Expr

/-! ### Arrivals -/

namespace Pass

/-- The state in which a pass over a tree comes to one of its subtrees. -/
def arrival (p : Pass) : Expr → List Side → Pass
  | _, [] => p
  | .literal _, _ :: _ => p
  | .binary _ left _ _, .left :: path => p.arrival left path
  | .binary _ left right _, .right :: path => (p.evaluate left).pass.arrival right path

variable {p q : Pass} {op : Operator} {a b : Int32} {e : Expr} {path : List Side}

/-- What a pass leaves of a subtree is what it makes of it on its arrival. -/
theorem at?_tree_evaluate (p : Pass) (e : Expr) (path : List Side) :
    (p.evaluate e).tree.at? path =
      (e.at? path).map fun s => ((p.arrival e path).evaluate s).tree := by
  induction e generalizing p path with
  | literal v => cases path <;> rfl
  | binary op left right kept ihl ihr =>
    cases path with
    | nil => rfl
    | cons side path =>
      cases side with
      | left => exact ihl p path
      | right => exact ihr (p.evaluate left).pass path

/-- A pass arrives with the flag that it started with and the overflows to the left. -/
theorem overflowed_arrival {s : Expr} (h : e.at? path = some s) :
    (p.arrival e path).overflowed = true ↔
      p.overflowed = true ∨ ∃ v ∈ p.visits e, v.Overflows ∧ IsLeftOf v.path path := by
  induction e generalizing p path with
  | literal v =>
    cases path with
    | nil => simp [arrival, visits]
    | cons side path => cases h
  | binary op left right kept ihl ihr =>
    cases path with
    | nil => simp [arrival, not_isLeftOf_nil]
    | cons side path =>
      rw [exists_mem_visits_binary]
      cases side with
      | left =>
        rw [arrival, ihl h]
        simp [isLeftOf_cons, not_nil_isLeftOf]
      | right =>
        rw [arrival, ihr h, (run_visits p left).overflowed_iff]
        simp [isLeftOf_cons, not_nil_isLeftOf, or_assoc]

/-! ### Arrivals with the flag up -/

theorem fst_combine_of_ne_ceiling (ha : a ≠ Word32.ceiling) (hb : b ≠ Word32.ceiling) (p q : Pass)
    (op : Operator) : (p.combine op a b).1 = (q.combine op a b).1 := by
  unfold combine
  rw [if_neg (by simp [ha, hb]), if_neg (by simp [ha, hb])]
  cases op.apply a b <;> rfl

/-- What becomes of a tree in a pass whose flag is up already, measured by a pass whose flag stays
down: a ceiling below the root is taken for an overflow. -/
structure ComesLate (p q : Pass) (e : Expr) : Prop where
  ceiling : (q.evaluate e).tree.CeilingBelow → (p.evaluate e).value = Word32.ceiling
  value : ¬(q.evaluate e).tree.CeilingBelow → (p.evaluate e).value = (q.evaluate e).value

theorem ComesLate.of_showsCeiling (h : p.ComesLate q e)
    (hshows : (q.evaluate e).tree.ShowsCeiling) : (p.evaluate e).value = Word32.ceiling := by
  by_cases hbelow : (q.evaluate e).tree.CeilingBelow
  · exact h.ceiling hbelow
  · rw [h.value hbelow, ← value_tree_evaluate]
    exact hshows.resolve_right hbelow

theorem ComesLate.of_not_showsCeiling (h : p.ComesLate q e)
    (hnot : ¬(q.evaluate e).tree.ShowsCeiling) :
    (p.evaluate e).value = (q.evaluate e).value ∧ (q.evaluate e).value ≠ Word32.ceiling := by
  obtain ⟨hvalue, hbelow⟩ := not_or.1 hnot
  rw [value_tree_evaluate] at hvalue
  exact ⟨h.value hbelow, hvalue⟩

theorem comesLate_evaluate (hp : p.overflowed = true) (hq : q.overflowed = false)
    (hfits : (q.evaluate e).pass.overflowed = false) : p.ComesLate q e := by
  induction e generalizing p q with
  | literal v => exact ⟨fun h => absurd h Expr.not_ceilingBelow_literal, fun _ => rfl⟩
  | binary op left right kept ihl ihr =>
    obtain ⟨hleft, hright⟩ := not_overflowed_operands hfits
    have hafter : (p.evaluate left).pass.overflowed = true := overflowed_evaluate hp
    have hraised : ((p.evaluate left).pass.evaluate right).pass.overflowed = true :=
      overflowed_evaluate hafter
    have hl := ihl hp hq hleft
    have hr := ihr hafter hleft hright
    constructor
    -- An operand that shows the ceiling is at the ceiling when the operator comes to it.
    · intro hbelow
      have hceiling := (Expr.ceilingBelow_binary.1 hbelow).imp hl.of_showsCeiling
        hr.of_showsCeiling
      exact congrArg Prod.fst (combine_of_ceiling hraised hceiling)
    · intro hbelow
      obtain ⟨hlnot, hrnot⟩ := not_or.1 (mt Expr.ceilingBelow_binary.2 hbelow)
      obtain ⟨hlvalue, hlne⟩ := hl.of_not_showsCeiling hlnot
      obtain ⟨hrvalue, hrne⟩ := hr.of_not_showsCeiling hrnot
      rw [evaluate_binary, evaluate_binary]
      simp only [hlvalue, hrvalue]
      exact fst_combine_of_ne_ceiling hlne hrne _ _ op

/-- An operator that does not overflow by itself keeps in any tree the value that it has alone,
unless an operator to the left of it overflows and a value at the ceiling stands below it; then it
keeps the ceiling. -/
theorem kept_eq_value_alone (reportsOverflow reportsOverflow' : Bool) (e : Expr) {path : List Side}
    {op : Operator} {left right : Expr} {kept : Int32}
    (hnode : e.at? path = some (.binary op left right kept))
    (hfits : ((start reportsOverflow').evaluate (.binary op left right kept)).pass.overflowed =
      false) :
    let done := (start reportsOverflow).evaluate e
    let alone := (start reportsOverflow').evaluate (.binary op left right kept)
    let late := ∃ v ∈ (start reportsOverflow).visits e, v.Overflows ∧ IsLeftOf v.path path
    (¬(late ∧ alone.tree.CeilingBelow) →
        (done.tree.at? path).map Expr.value = some alone.value) ∧
      (late ∧ alone.tree.CeilingBelow →
        (done.tree.at? path).map Expr.value = some Word32.ceiling) := by
  intro done alone late
  let before := (start reportsOverflow).arrival e path
  have hkept : (done.tree.at? path).map Expr.value =
      some (before.evaluate (.binary op left right kept)).value := by
    rw [at?_tree_evaluate, hnode, Option.map_some, Option.map_some, value_tree_evaluate]
  have harrival : before.overflowed = true ↔ late := by
    rw [overflowed_arrival hnode]
    simp [start, late]
  rw [hkept, Option.some.injEq, Option.some.injEq]
  by_cases hlate : late
  · have hcomes := comesLate_evaluate (harrival.2 hlate) rfl hfits
    exact ⟨fun h => hcomes.value fun hbelow => h ⟨hlate, hbelow⟩, fun h => hcomes.ceiling h.2⟩
  · have hflag : before.overflowed = false := by
      rwa [← Bool.not_eq_true, harrival]
    exact ⟨fun _ => (evaluate_congr hflag rfl).1, fun h => absurd h.1 hlate⟩

/-- To the right of a sum that is too big, `2147483647-1` keeps the ceiling and `7-5` keeps 2. -/
theorem kept_eq_value_alone_of_differences :
    let sum : Expr := .node .add (.literal 2147483647) (.literal 1)
    let large : Expr := .node .sub (.literal 2147483647) (.literal 1)
    let small : Expr := .node .sub (.literal 7) (.literal 5)
    let e : Expr := .node .mul sum (.node .mod large small)
    let done := (start true).evaluate e
    let late path := ∃ v ∈ (start true).visits e, v.Overflows ∧ IsLeftOf v.path path
    ((e.at? [.right, .left] = some large ∧ ((start true).evaluate large).pass.overflowed = false ∧
        late [.right, .left] ∧ ((start true).evaluate large).tree.CeilingBelow) ∧
      (done.tree.at? [.right, .left]).map Expr.value = some Word32.ceiling) ∧
    ((e.at? [.right, .right] = some small ∧ ((start true).evaluate small).pass.overflowed = false ∧
        ¬((start true).evaluate small).tree.CeilingBelow) ∧
      (done.tree.at? [.right, .right]).map Expr.value = some 2) := by
  intro sum large small e
  have hlarge : e.at? [.right, .left] = some large := rfl
  have hsmall : e.at? [.right, .right] = some small := rfl
  have hfits : ((start true).evaluate large).pass.overflowed = false := by decide
  have hfits' : ((start true).evaluate small).pass.overflowed = false := by decide
  have hlate : ∃ v ∈ (start true).visits e, v.Overflows ∧ IsLeftOf v.path [.right, .left] :=
    ⟨⟨[.left], start true, .add, 2147483647, 1⟩, by decide, by decide, [], [], [.left], rfl, rfl⟩
  have hbelow : ((start true).evaluate large).tree.CeilingBelow := ⟨.left, [], _, rfl, rfl⟩
  have hnot : ¬((start true).evaluate small).tree.CeilingBelow := by
    rw [show ((start true).evaluate small).tree = .binary .sub (.literal 7) (.literal 5) 2 from rfl,
      Expr.ceilingBelow_binary, Expr.showsCeiling_literal, Expr.showsCeiling_literal]
    decide
  exact ⟨⟨⟨hlarge, hfits, hlate, hbelow⟩,
      (kept_eq_value_alone true true e hlarge hfits).2 ⟨hlate, hbelow⟩⟩,
    ⟨hsmall, hfits', hnot⟩, (kept_eq_value_alone true true e hsmall hfits').1 fun h => hnot h.2⟩

/-- In `(2147483647+1)+(2147483647-1)` the difference is not too big, and keeps the ceiling. -/
theorem not_forall_kept_eq_value_alone :
    ¬∀ (e : Expr) (path : List Side) (op : Operator) (left right : Expr) (kept : Int32),
      e.at? path = some (.binary op left right kept) →
        ((start true).evaluate (.binary op left right kept)).pass.overflowed = false →
          (((start true).evaluate e).tree.at? path).map Expr.value =
            some ((start true).evaluate (.binary op left right kept)).value := by
  intro h
  let sum : Expr := .node .add (.literal 2147483647) (.literal 1)
  let difference : Expr := .node .sub (.literal 2147483647) (.literal 1)
  have hvalue := h (.node .add sum difference) [.right] .sub (.literal 2147483647) (.literal 1) 0
    rfl (by decide)
  exact absurd hvalue (by decide)

end Pass

end ArithTree
