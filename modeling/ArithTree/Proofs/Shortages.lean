import Mathlib.Data.List.Induction
import ArithTree.Proofs.PostfixWords

/-! Words with every operator after its operands, and what is wrong with those that are no tree. An
operand adds a fragment to the stack and an operator takes one away, so the height of the stack is
the surplus of the operands over the operators read so far. An operator is short where that is less
than two. Main statement: words that are no tree are refused for their first short operator, and if
there is none for the fragments that are left over. -/

namespace ArithTree.Postfix

variable {words : List String} {word : String} {stack : List (List String)} {cause : ReadError}
  {op : Operator}

/-! ### Surplus -/

/-- How many more operands than operators there are. -/
def surplus (words : List String) : Int :=
  (words.countP (Operator.ofSymbol? · |>.isNone) : Int) -
    (words.countP (Operator.ofSymbol? · |>.isSome) : Int)

theorem surplus_append_operand (hw : Operator.ofSymbol? word = none) (words : List String) :
    surplus (words ++ [word]) = surplus words + 1 := by
  simp only [surplus, List.countP_append, List.countP_singleton, hw, Option.isNone_none,
    Option.isSome_none, if_true, Bool.false_eq_true, if_false]
  omega

theorem surplus_append_symbol (op : Operator) (words : List String) :
    surplus (words ++ [op.symbol]) = surplus words - 1 := by
  simp only [surplus, List.countP_append, List.countP_singleton, Operator.ofSymbol?_symbol,
    Option.isNone_some, Option.isSome_some, if_true, Bool.false_eq_true, if_false]
  omega

/-- The operator ends some first words, and fewer than two operands are left for it before. -/
def IsShort (words : List String) (op : Operator) : Prop :=
  ∃ before, before ++ [op.symbol] <+: words ∧ surplus before < 2

/-- The operator is short, and none before it is. -/
def IsFirstShort (words : List String) (op : Operator) : Prop :=
  ∃ before, before ++ [op.symbol] <+: words ∧ surplus before < 2 ∧ ∀ op', ¬IsShort before op'

theorem isShort_append_singleton :
    IsShort (words ++ [word]) op ↔ IsShort words op ∨ word = op.symbol ∧ surplus words < 2 := by
  simp only [IsShort, List.prefix_concat_iff, or_and_right, exists_or]
  rw [or_comm]
  refine or_congr_right ?_
  constructor
  · rintro ⟨before, hwords, hshort⟩
    obtain ⟨rfl, hword⟩ := List.append_inj' hwords rfl
    exact ⟨(List.singleton_inj.1 hword).symm, hshort⟩
  · rintro ⟨rfl, hshort⟩
    exact ⟨words, rfl, hshort⟩

theorem IsFirstShort.append (h : IsFirstShort words op) (others : List String) :
    IsFirstShort (words ++ others) op := by
  obtain ⟨before, hprefix, hshort, hfirst⟩ := h
  exact ⟨before, hprefix.trans (List.prefix_append _ _), hshort, hfirst⟩

/-! ### The stack -/

theorem foldlM_step_append_singleton (words : List String) (word : String) :
    (words ++ [word]).foldlM step [] = words.foldlM step [] >>= fun stack => step stack word := by
  simp [List.foldlM_append]

/-- As long as no operator is short, the stack is as high as the surplus. -/
theorem length_of_foldlM (h : words.foldlM step [] = .ok stack) :
    (stack.length : Int) = surplus words ∧ (∀ op, ¬IsShort words op) ∧
      (words ≠ [] → stack ≠ []) := by
  induction words using List.reverseRecOn generalizing stack with
  | nil =>
    obtain rfl := Except.ok.inj h
    exact ⟨rfl, by simp [IsShort], by simp⟩
  | append_singleton words word ih =>
    rw [foldlM_step_append_singleton, ReadError.bind_eq_ok_iff] at h
    obtain ⟨between, hbetween, hstep⟩ := h
    obtain ⟨hlength, hnone, -⟩ := ih hbetween
    rcases step_cases between word with
      ⟨hoperand, hok⟩ | ⟨op, rfl, ⟨-, herror⟩ | ⟨left, right, rest, rfl, hok⟩⟩
    · obtain rfl := Except.ok.inj (hok.symm.trans hstep)
      refine ⟨?_, fun op hop => ?_, fun _ => List.cons_ne_nil _ _⟩
      · rw [surplus_append_operand hoperand, List.length_cons]
        omega
      · rcases isShort_append_singleton.1 hop with hop | ⟨rfl, -⟩
        · exact hnone op hop
        · simp at hoperand
    · cases herror.symm.trans hstep
    · obtain rfl := Except.ok.inj (hok.symm.trans hstep)
      rw [List.length_cons, List.length_cons] at hlength
      refine ⟨?_, fun op' hop => ?_, fun _ => List.cons_ne_nil _ _⟩
      · rw [surplus_append_symbol, List.length_cons]
        omega
      · rcases isShort_append_singleton.1 hop with hop | ⟨-, hshort⟩
        · exact hnone op' hop
        · omega

theorem exists_isFirstShort_of_foldlM (h : words.foldlM step [] = .error cause) :
    ∃ op, IsFirstShort words op ∧ cause = .missingOperand op := by
  induction words using List.reverseRecOn with
  | nil => cases h
  | append_singleton words word ih =>
    rw [foldlM_step_append_singleton] at h
    cases hbetween : words.foldlM step [] with
    | error cause' =>
      rw [hbetween, ReadError.error_bind, Except.error.injEq] at h
      obtain ⟨op, hop, rfl⟩ := ih (hbetween.trans (congrArg _ h))
      exact ⟨op, hop.append [word], rfl⟩
    | ok stack =>
      rw [hbetween, ReadError.ok_bind] at h
      rcases step_cases stack word with
        ⟨-, hok⟩ | ⟨op, rfl, ⟨hheight, herror⟩ | ⟨_, _, _, -, hok⟩⟩
      · cases hok.symm.trans h
      · obtain ⟨hlength, hnone, -⟩ := length_of_foldlM hbetween
        exact ⟨op, ⟨words, List.prefix_rfl, by omega, hnone⟩,
          Except.error.inj (h.symm.trans herror)⟩
      · cases hok.symm.trans h

/-! ### Outcomes -/

theorem toPrefixWords_of_isShort (h : IsShort words op) :
    ∃ first, IsFirstShort words first ∧ toPrefixWords words = .error (.missingOperand first) := by
  cases hfold : words.foldlM step [] with
  | ok stack => exact absurd h ((length_of_foldlM hfold).2.1 op)
  | error cause =>
    obtain ⟨first, hfirst, rfl⟩ := exists_isFirstShort_of_foldlM hfold
    exact ⟨first, hfirst, by rw [toPrefixWords, hfold, ReadError.error_bind]⟩

theorem toPrefixWords_of_not_isShort (h : ∀ op, ¬IsShort words op) (hne : words ≠ []) :
    (∃ moved, toPrefixWords words = .ok moved) ∨
      ∃ count : Nat, 2 ≤ count ∧ count = surplus words ∧
        toPrefixWords words = .error (.danglingOperands count) := by
  cases hfold : words.foldlM step [] with
  | error cause =>
    obtain ⟨first, ⟨before, hprefix, hshort, -⟩, -⟩ := exists_isFirstShort_of_foldlM hfold
    exact absurd ⟨before, hprefix, hshort⟩ (h first)
  | ok stack =>
    obtain ⟨hlength, -, hstack⟩ := length_of_foldlM hfold
    rw [toPrefixWords, hfold, ReadError.ok_bind]
    rcases stack with _ | ⟨first, _ | ⟨second, rest⟩⟩
    · exact absurd rfl (hstack hne)
    · exact .inl ⟨first, rfl⟩
    · exact .inr ⟨_, by simp, hlength, rfl⟩

/-- Words are rearranged exactly when they are those of a tree, and then into the same tree's words.
All others are refused: no words at all because the input ends, words with a short operator for the
first one, and the rest for as many fragments as are left over. -/
theorem toPrefixWords_outcome_of_surplus (words : List String) :
    (∀ moved, toPrefixWords words = .ok moved ↔
        ∃ t : WordTree, t.postfixWords = words ∧ t.prefixWords = moved) ∧
      (words = [] → toPrefixWords words = .error .unexpectedEnd) ∧
      ((∃ op, IsShort words op) → ∃ op, IsFirstShort words op ∧
        toPrefixWords words = .error (.missingOperand op)) ∧
      ((∀ t : WordTree, t.postfixWords ≠ words) → words ≠ [] → (¬∃ op, IsShort words op) →
        ∃ count : Nat, 2 ≤ count ∧ count = surplus words ∧
          toPrefixWords words = .error (.danglingOperands count)) := by
  refine ⟨fun moved => toPrefixWords_eq_ok_iff, ?_, ?_, ?_⟩
  · rintro rfl
    rfl
  · rintro ⟨op, hop⟩
    exact toPrefixWords_of_isShort hop
  · intro htree hne hshort
    rcases toPrefixWords_of_not_isShort (not_exists.1 hshort) hne with ⟨moved, hok⟩ | hdangling
    · obtain ⟨t, ht, -⟩ := toPrefixWords_eq_ok_iff.1 hok
      exact absurd ht (htree t)
    · exact hdangling

/-- Of two short operators the first is named, and operands that no operator joins are counted. -/
theorem toPrefixWords_outcome_of_two_shortages :
    (IsShort ["1", "x", "*", "+", "-"] .sub ∧ ∃ op, IsFirstShort ["1", "x", "*", "+", "-"] op ∧
        toPrefixWords ["1", "x", "*", "+", "-"] = .error (.missingOperand op)) ∧
      ((∀ t : WordTree, t.postfixWords ≠ ["1", "2", "+", "3", "+4"]) ∧
        (¬∃ op, IsShort ["1", "2", "+", "3", "+4"] op) ∧
        ∃ count : Nat, 2 ≤ count ∧ count = surplus ["1", "2", "+", "3", "+4"] ∧
          toPrefixWords ["1", "2", "+", "3", "+4"] = .error (.danglingOperands count)) := by
  have hshort : IsShort ["1", "x", "*", "+", "-"] .sub :=
    ⟨["1", "x", "*", "+"], by decide, by decide⟩
  have htree : ∀ t : WordTree, t.postfixWords ≠ ["1", "2", "+", "3", "+4"] := by
    intro t ht
    have hok := toPrefixWords_eq_ok_iff.2 ⟨t, ht, rfl⟩
    have hdangling : toPrefixWords ["1", "2", "+", "3", "+4"] = .error (.danglingOperands 3) := by
      decide
    simp [hdangling] at hok
  have hnone : ¬∃ op, IsShort ["1", "2", "+", "3", "+4"] op := by
    have hfold : ["1", "2", "+", "3", "+4"].foldlM step [] =
        .ok [["+4"], ["3"], ["+", "1", "2"]] := by decide
    exact not_exists.2 (length_of_foldlM hfold).2.1
  exact ⟨⟨hshort, (toPrefixWords_outcome_of_surplus _).2.2.1 ⟨.sub, hshort⟩⟩, htree, hnone,
    (toPrefixWords_outcome_of_surplus _).2.2.2 htree (by decide) hnone⟩

end ArithTree.Postfix
