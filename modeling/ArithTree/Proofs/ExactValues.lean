import ArithTree.Proofs.Passes

/-! Evaluations measured against the integers without bounds. A tree has an exact value where its
evaluation takes no power and meets no zero divisor. Machine words have two rules of their own: a
difference adds the negated word, and the least word is its own negation; and the least word divided
by -1 stays the least word. In both cases the result is the exact one less `2 ^ 32`, and the wrapped
value of a tree follows these two rules, takes 0 for a zero divisor and is exact otherwise. Main
statement: a fresh pass over a tree without powers notices an overflow exactly when the wrapped
value of some subtree leaves the range, and gives the wrapped value of the tree otherwise; where
nothing wraps and no divisor is zero, these are the exact values. -/

namespace ArithTree

namespace Word32

/-- An integer that a machine word holds. -/
def InRange (n : Int) : Prop := -2147483648 ≤ n ∧ n ≤ 2147483647

theorem not_inRange_iff {n : Int} : ¬InRange n ↔ n < -2147483648 ∨ 2147483647 < n := by
  unfold InRange
  omega

theorem inRange_toInt (v : Int32) : InRange v.toInt :=
  ⟨Int32.le_toInt v, Int32.toInt_le v⟩

end Word32

/-! ### Operators -/

/-- An exact result is a value that is in range, or it is too big. -/
theorem Outcome.exact_cases (n : Int) :
    (Word32.InRange n ∧ ∃ v : Int32, v.toInt = n ∧ Outcome.exact n = .value v) ∨
      ¬Word32.InRange n ∧ Outcome.exact n = .tooBig := by
  unfold Outcome.exact
  cases hword : Word32.ofInt? n with
  | some v =>
    obtain rfl := Word32.ofInt?_eq_some_iff.1 hword
    exact .inl ⟨Word32.inRange_toInt v, v, rfl, rfl⟩
  | none => exact .inr ⟨Word32.not_inRange_iff.2 (Word32.ofInt?_eq_none_iff.1 hword), rfl⟩

theorem Outcome.exact_toInt (v : Int32) : Outcome.exact v.toInt = .value v := by
  simp [Outcome.exact]

namespace Operator

/-- The exact result of an operator. A zero divisor has none; powers have no part in this, because
they are clamped to the range before anything could be too big. -/
def exactValue? (op : Operator) (a b : Int) : Option Int :=
  match op with
  | add => some (a + b)
  | sub => some (a - b)
  | mul => some (a * b)
  | div => if b = 0 then none else some (a.tdiv b)
  | mod => if b = 0 then none else some (a.tmod b)
  | pow => none

/-- The operands at which machine words wrap around. -/
def Wraps (op : Operator) (a b : Int) : Prop :=
  op = sub ∧ b = -2147483648 ∨ op = div ∧ a = -2147483648 ∧ b = -1

instance (op : Operator) (a b : Int) : Decidable (op.Wraps a b) :=
  inferInstanceAs (Decidable (op = sub ∧ b = -2147483648 ∨ op = div ∧ a = -2147483648 ∧ b = -1))

/-- The exact result, but less `2 ^ 32` where machine words wrap around, and 0 for a zero
divisor. -/
def wrapped (op : Operator) (a b : Int) : Int :=
  match op.exactValue? a b with
  | some n => if op.Wraps a b then n - 4294967296 else n
  | none => 0

theorem wrapped_of_exactValue? {op : Operator} {a b n : Int} (h : op.exactValue? a b = some n)
    (hnot : ¬op.Wraps a b) : op.wrapped a b = n := by
  rw [wrapped, h]
  exact if_neg hnot

theorem wrapped_of_wraps {op : Operator} {a b n : Int} (h : op.exactValue? a b = some n)
    (hwraps : op.Wraps a b) : op.wrapped a b = n - 4294967296 := by
  rw [wrapped, h]
  exact if_pos hwraps

section Words

variable (a b : Int32)

theorem toInt_neg_of_ne {b : Int32} (h : b.toInt ≠ -2147483648) : (-b).toInt = -b.toInt := by
  have hlower := Int32.le_toInt b
  have hupper := Int32.toInt_lt b
  rw [Int32.toInt_neg]
  apply Int.bmod_eq_of_le <;> omega

theorem apply_sub_eq_exact : sub.apply a b = .exact (sub.wrapped a.toInt b.toInt) := by
  rw [apply]
  by_cases hb : b.toInt = -2147483648
  · have hleast : b = Int32.minValue := Int32.toInt_inj.1 hb
    have hneg : (-b).toInt = -2147483648 := by
      rw [hleast]
      decide
    rw [wrapped_of_wraps rfl (.inl ⟨rfl, hb⟩), hneg, hb]
    congr 1
    omega
  · rw [wrapped_of_exactValue? rfl (by simp [Wraps, hb]), toInt_neg_of_ne hb, Int.sub_eq_add_neg]

theorem toInt_div_of_ne_zero {b : Int32} (h : b.toInt ≠ 0) :
    (a / b).toInt = div.wrapped a.toInt b.toInt := by
  have hexact : div.exactValue? a.toInt b.toInt = some (a.toInt.tdiv b.toInt) := if_neg h
  by_cases hwraps : a.toInt = -2147483648 ∧ b.toInt = -1
  · obtain ⟨ha, hb⟩ := hwraps
    have hleast : a = Int32.minValue := Int32.toInt_inj.1 ha
    have hminus : b = -1 := Int32.toInt_inj.1 hb
    rw [wrapped_of_wraps hexact (.inr ⟨rfl, ha, hb⟩), hleast, hminus]
    decide
  · rw [wrapped_of_exactValue? hexact (by simpa [Wraps] using hwraps)]
    by_cases ha : a = Int32.minValue
    · refine Int32.toInt_div_of_ne_right a b ?_
      rintro rfl
      exact hwraps ⟨by rw [ha]; rfl, rfl⟩
    · exact Int32.toInt_div_of_ne_left a b ha

/-- On machine words an operator gives its wrapped result or finds it too big, and a zero divisor is
reported. -/
theorem apply_eq_exact_or_undefined {op : Operator} (hpow : op ≠ pow) :
    op.apply a b = .exact (op.wrapped a.toInt b.toInt) ∨
      (∃ cause, op.apply a b = .undefined cause) ∧ op.wrapped a.toInt b.toInt = 0 := by
  cases op with
  | add => exact .inl (by rw [wrapped_of_exactValue? rfl (by simp [Wraps])]; rfl)
  | sub => exact .inl (apply_sub_eq_exact a b)
  | mul => exact .inl (by rw [wrapped_of_exactValue? rfl (by simp [Wraps])]; rfl)
  | pow => exact absurd rfl hpow
  | div =>
    by_cases hb : b = 0
    · exact .inr ⟨⟨_, if_pos hb⟩, by simp [wrapped, exactValue?, hb]⟩
    · have hzero : b.toInt ≠ 0 := fun h => hb (Int32.toInt_inj.1 h)
      refine .inl ?_
      rw [apply, if_neg hb, ← toInt_div_of_ne_zero a hzero, Outcome.exact_toInt]
  | mod =>
    by_cases hb : b = 0
    · exact .inr ⟨⟨_, if_pos hb⟩, by simp [wrapped, exactValue?, hb]⟩
    · have hzero : b.toInt ≠ 0 := fun h => hb (Int32.toInt_inj.1 h)
      have hexact : mod.exactValue? a.toInt b.toInt = some (a.toInt.tmod b.toInt) := if_neg hzero
      refine .inl ?_
      rw [apply, if_neg hb, wrapped_of_exactValue? hexact (by simp [Wraps]), ← Int32.toInt_mod,
        Outcome.exact_toInt]

end Words

end Operator

/-! ### Trees -/

namespace Expr

/-- The tree itself and everything below it. -/
def subtrees : Expr → List Expr
  | literal v => [literal v]
  | binary op left right result =>
    binary op left right result :: (left.subtrees ++ right.subtrees)

/-- The exact value, for a tree without powers whose evaluation divides by zero nowhere. -/
def exactValue? : Expr → Option Int
  | literal v => some v.toInt
  | binary op left right _ =>
    left.exactValue?.bind fun a => right.exactValue?.bind fun b => op.exactValue? a b

/-- The value by the rules of machine words, but without their bounds. -/
def wrapped : Expr → Int
  | literal v => v.toInt
  | binary op left right _ => op.wrapped left.wrapped right.wrapped

/-- The root is an operator whose operands have exact values at which machine words wrap around. -/
def Wraps : Expr → Prop
  | literal _ => False
  | binary op left right _ =>
    ∃ a b, left.exactValue? = some a ∧ right.exactValue? = some b ∧ op.Wraps a b

theorem mem_subtrees_self (e : Expr) : e ∈ e.subtrees := by
  cases e <;> simp [subtrees]

theorem exists_mem_subtrees_binary {P : Expr → Prop} {op : Operator} {left right : Expr}
    {kept : Int32} :
    (∃ s ∈ (binary op left right kept).subtrees, P s) ↔
      P (binary op left right kept) ∨ (∃ s ∈ left.subtrees, P s) ∨ ∃ s ∈ right.subtrees, P s := by
  simp only [subtrees, List.mem_cons, List.mem_append, or_and_right, exists_or, exists_eq_left]

/-- Where nothing wraps and no divisor is zero, the wrapped values are the exact ones. -/
theorem exactValue?_eq_some_wrapped {e : Expr} {n : Int} (hnot : ∀ s ∈ e.subtrees, ¬s.Wraps)
    (h : e.exactValue? = some n) : ∀ s ∈ e.subtrees, s.exactValue? = some s.wrapped := by
  induction e generalizing n with
  | literal v =>
    intro s hs
    obtain rfl := List.mem_singleton.1 hs
    rfl
  | binary op left right kept ihl ihr =>
    obtain ⟨a, ha, hrest⟩ := Option.bind_eq_some_iff.1 h
    obtain ⟨b, hb, hop⟩ := Option.bind_eq_some_iff.1 hrest
    simp only [subtrees, List.mem_cons, List.mem_append] at hnot ⊢
    have hl := ihl (fun s hs => hnot s (.inr (.inl hs))) ha
    have hr := ihr (fun s hs => hnot s (.inr (.inr hs))) hb
    rintro s (rfl | hs | hs)
    · have hleft : a = left.wrapped :=
        Option.some.inj (ha.symm.trans (hl left left.mem_subtrees_self))
      have hright : b = right.wrapped :=
        Option.some.inj (hb.symm.trans (hr right right.mem_subtrees_self))
      have hroot := Operator.wrapped_of_exactValue? hop fun hw =>
        hnot _ (.inl rfl) ⟨a, b, ha, hb, hw⟩
      rw [h, wrapped, ← hleft, ← hright, hroot]
    · exact hl s hs
    · exact hr s hs

end Expr

/-! ### Passes -/

namespace Pass

variable {p : Pass} {e : Expr} {n : Int}

/-- One operator, its operands evaluated while nothing was too big. -/
theorem combine_of_not_overflowed {op : Operator} {a b : Int32} (hp : p.overflowed = false)
    (hpow : op ≠ .pow) :
    ((p.combine op a b).2.overflowed = true ↔ ¬Word32.InRange (op.wrapped a.toInt b.toInt)) ∧
      ((p.combine op a b).2.overflowed = false →
        (p.combine op a b).1.toInt = op.wrapped a.toInt b.toInt) := by
  unfold combine
  rw [hp, Bool.false_and, if_neg Bool.false_ne_true]
  rcases Operator.apply_eq_exact_or_undefined a b hpow with happly | ⟨⟨cause, happly⟩, hzero⟩
  · rcases Outcome.exact_cases (op.wrapped a.toInt b.toInt) with
      ⟨hin, v, hv, hexact⟩ | ⟨hout, hexact⟩
    · rw [happly, hexact]
      exact ⟨by simp [hp, hin], fun _ => hv⟩
    · rw [happly, hexact]
      exact ⟨by simp [hout], by simp⟩
  · rw [happly, hzero]
    exact ⟨by simp [hp, Word32.InRange], fun _ => rfl⟩

/-- The operands are evaluated before the operator, so as long as nothing was too big they have
their wrapped values, and the operator is too big exactly where its own wrapped value leaves the
range. -/
theorem evaluate_of_not_overflowed (hp : p.overflowed = false) (hpow : .pow ∉ e.operators) :
    ((p.evaluate e).pass.overflowed = true ↔ ∃ s ∈ e.subtrees, ¬Word32.InRange s.wrapped) ∧
      ((p.evaluate e).pass.overflowed = false → (p.evaluate e).value.toInt = e.wrapped) := by
  induction e generalizing p with
  | literal v =>
    have hin := Word32.inRange_toInt v
    exact ⟨by simp [evaluate, Expr.subtrees, Expr.wrapped, hp, hin], fun _ => rfl⟩
  | binary op left right kept ihl ihr =>
    simp only [Expr.operators, List.mem_cons, List.mem_append, not_or] at hpow
    obtain ⟨hop, hlpow, hrpow⟩ := hpow
    obtain ⟨hlflag, hlvalue⟩ := ihl hp hlpow
    rw [evaluate_binary, Expr.exists_mem_subtrees_binary, Expr.wrapped]
    simp only
    cases hleft : (p.evaluate left).pass.overflowed with
    | true => simp [overflowed_combine (overflowed_evaluate hleft), hlflag.1 hleft]
    | false =>
      obtain ⟨hrflag, hrvalue⟩ := ihr hleft hrpow
      rw [← hlflag, hleft]
      cases hright : ((p.evaluate left).pass.evaluate right).pass.overflowed with
      | true => simp [overflowed_combine hright, hrflag.1 hright]
      | false =>
        rw [← hrflag, hright, ← hlvalue hleft, ← hrvalue hright]
        simpa using combine_of_not_overflowed hright (Ne.symm hop)

/-- A fresh pass over a tree without powers notices an overflow exactly when the wrapped value of
some subtree leaves the range, and otherwise gives the wrapped value of the tree; if nothing wraps
and the exact evaluation divides by zero nowhere, all of this is true of the exact values. -/
theorem overflowed_iff_exists_subtree (reportsOverflow : Bool) (e : Expr) :
    (.pow ∉ e.operators →
      (((start reportsOverflow).evaluate e).pass.overflowed = true ↔
          ∃ s ∈ e.subtrees, s.wrapped < -2147483648 ∨ 2147483647 < s.wrapped) ∧
        (((start reportsOverflow).evaluate e).pass.overflowed = false →
          ((start reportsOverflow).evaluate e).value.toInt = e.wrapped)) ∧
    (.pow ∉ e.operators → (∀ s ∈ e.subtrees, ¬s.Wraps) → ∀ n, e.exactValue? = some n →
      (((start reportsOverflow).evaluate e).pass.overflowed = true ↔
          ∃ s ∈ e.subtrees, ∃ m, s.exactValue? = some m ∧ (m < -2147483648 ∨ 2147483647 < m)) ∧
        (((start reportsOverflow).evaluate e).pass.overflowed = false →
          ((start reportsOverflow).evaluate e).value.toInt = n)) := by
  have hstart : (start reportsOverflow).overflowed = false := rfl
  have hwrapped := fun hpow : .pow ∉ e.operators => evaluate_of_not_overflowed hstart hpow
  simp only [Word32.not_inRange_iff] at hwrapped
  refine ⟨hwrapped, ?_⟩
  intro hpow hnot n h
  obtain ⟨hflag, hvalue⟩ := hwrapped hpow
  have hexact := Expr.exactValue?_eq_some_wrapped hnot h
  have hroot : e.wrapped = n := Option.some.inj ((hexact e e.mem_subtrees_self).symm.trans h)
  refine ⟨?_, fun hnone => (hvalue hnone).trans hroot⟩
  rw [hflag]
  refine exists_congr fun s => and_congr_right fun hs => ?_
  simp [hexact s hs]

/-- The least word taken from 0 wraps around to itself, and 1 taken from it is too big. -/
theorem overflowed_iff_exists_subtree_of_least :
    let least : Expr := .node .sub (.node .sub (.literal 0) (.literal 2147483647)) (.literal 1)
    let negated : Expr := .node .sub (.literal 0) least
    let below : Expr := .node .sub least (.literal 1)
    (.pow ∉ negated.operators ∧
      ((start true).evaluate negated).pass.overflowed = false ∧
        ((start true).evaluate negated).value.toInt = negated.wrapped) ∧
    ((.pow ∉ below.operators ∧ (∀ s ∈ below.subtrees, ¬s.Wraps) ∧
        below.exactValue? = some (-2147483649)) ∧
      ((start true).evaluate below).pass.overflowed = true) := by
  intro least negated below
  have hnegated : .pow ∉ negated.operators := by decide
  have hbelow : .pow ∉ below.operators := by decide
  have hnot : ∀ s ∈ below.subtrees, ¬s.Wraps := by
    simp [below, least, Expr.node, Expr.subtrees, Expr.Wraps, Expr.exactValue?,
      Operator.exactValue?, Operator.Wraps]
  have hexact : below.exactValue? = some (-2147483649) := by decide
  have hflag : ((start true).evaluate negated).pass.overflowed = false := by decide
  refine ⟨⟨hnegated, hflag, ((overflowed_iff_exists_subtree true negated).1 hnegated).2 hflag⟩,
    ⟨hbelow, hnot, hexact⟩, ?_⟩
  refine ((overflowed_iff_exists_subtree true below).2 hbelow hnot _ hexact).1.2 ?_
  exact ⟨below, below.mem_subtrees_self, _, hexact, by decide⟩

/-- With exact values alone an overflow can go unnoticed, and be noticed where there is none: the
least word is taken from 0 or divided by -1, and it is taken from -1. -/
theorem overflow_unnoticed_and_unfounded :
    let least : Expr := .node .sub (.node .sub (.literal 0) (.literal 2147483647)) (.literal 1)
    let fromZero : Expr := .node .sub (.literal 0) least
    let minusOne : Expr := .node .sub (.literal 0) (.literal 1)
    let quotient : Expr := .node .div least minusOne
    let fromMinusOne : Expr := .node .sub minusOne least
    (((∀ v ∈ fromZero.literals, 0 ≤ v.toInt) ∧ .pow ∉ fromZero.operators ∧
        fromZero.exactValue? = some 2147483648) ∧
      ((start true).evaluate fromZero).pass.overflowed = false ∧
      ((start true).evaluate fromZero).value.toInt = -2147483648) ∧
    (((∀ v ∈ quotient.literals, 0 ≤ v.toInt) ∧ .pow ∉ quotient.operators ∧
        quotient.exactValue? = some 2147483648) ∧
      ((start true).evaluate quotient).pass.overflowed = false ∧
      ((start true).evaluate quotient).value.toInt = -2147483648) ∧
    (((∀ v ∈ fromMinusOne.literals, 0 ≤ v.toInt) ∧ .pow ∉ fromMinusOne.operators ∧
        fromMinusOne.exactValue? = some 2147483647) ∧
      (∀ s ∈ fromMinusOne.subtrees, ∃ m, s.exactValue? = some m ∧ Word32.InRange m) ∧
      ((start true).evaluate fromMinusOne).pass.overflowed = true) := by
  intro least fromZero minusOne quotient fromMinusOne
  have hfromZero : ∀ v ∈ fromZero.literals, 0 ≤ v.toInt := by
    simp [fromZero, least, Expr.node, Expr.literals]
  have hquotient : ∀ v ∈ quotient.literals, 0 ≤ v.toInt := by
    simp [quotient, least, minusOne, Expr.node, Expr.literals]
  have hfromMinusOne : ∀ v ∈ fromMinusOne.literals, 0 ≤ v.toInt := by
    simp [fromMinusOne, least, minusOne, Expr.node, Expr.literals]
  refine ⟨⟨⟨hfromZero, by decide, by decide⟩, by decide, by decide⟩,
    ⟨⟨hquotient, by decide, by decide⟩, by decide, by decide⟩,
    ⟨hfromMinusOne, by decide, by decide⟩, ?_, by decide⟩
  simp [fromMinusOne, minusOne, least, Expr.node, Expr.subtrees, Expr.exactValue?,
    Operator.exactValue?, Word32.InRange]

end Pass

end ArithTree
