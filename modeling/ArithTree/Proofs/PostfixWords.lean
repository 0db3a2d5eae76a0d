import ArithTree.Postfix
import ArithTree.Proofs.WordTree

/-! What words with every operator after its operands are rearranged to. The stack of fragments is a
forest of word trees, the latest first; every word read is part of it. Main statement: words are
rearranged exactly when they are those of one tree, and then into the same tree's words with every
operator before its operands. -/

namespace ArithTree.Postfix

/-- The fragments of a forest on the stack. -/
def fragments (forest : List WordTree) : List (List String) := forest.map WordTree.prefixWords

/-- The words that a forest was read from, those of its latest tree the last. -/
def wordsOf (forest : List WordTree) : List String := forest.reverse.flatMap WordTree.postfixWords

@[simp] theorem wordsOf_cons (t : WordTree) (forest : List WordTree) :
    wordsOf (t :: forest) = wordsOf forest ++ t.postfixWords := by
  simp [wordsOf]

theorem foldlM_step_postfixWords (t : WordTree) (stack : List (List String)) :
    t.postfixWords.foldlM step stack = .ok (t.prefixWords :: stack) := by
  induction t generalizing stack with
  | operand word hw =>
    rw [WordTree.postfixWords, List.foldlM_cons, step_operand hw]
    rfl
  | node op left right ihl ihr =>
    rw [WordTree.postfixWords, List.foldlM_append, List.foldlM_append, ihl, ReadError.ok_bind, ihr,
      ReadError.ok_bind, List.foldlM_cons, step_symbol]
    rfl

/-- An operand is put on the stack, and an operator joins two fragments or has too few of them. -/
theorem step_cases (stack : List (List String)) (word : String) :
    (Operator.ofSymbol? word = none ∧ step stack word = .ok ([word] :: stack)) ∨
      ∃ op : Operator, word = op.symbol ∧
        (stack.length < 2 ∧ step stack word = .error (.missingOperand op) ∨
          ∃ left right rest, stack = right :: left :: rest ∧
            step stack word = .ok ((word :: (left ++ right)) :: rest)) := by
  cases hop : Operator.ofSymbol? word with
  | none => exact .inl ⟨rfl, step_operand hop stack⟩
  | some op =>
    refine .inr ⟨op, (Operator.ofSymbol?_eq_some_iff.1 hop).symm, ?_⟩
    rcases stack with _ | ⟨right, _ | ⟨left, rest⟩⟩
    · exact .inl ⟨by simp, by simp [step, hop]⟩
    · exact .inl ⟨by simp, by simp [step, hop]⟩
    · exact .inr ⟨left, right, rest, rfl, by simp [step, hop]⟩

/-- One word turns the forest into one with that word at the end of its words. -/
theorem step_fragments {forest : List WordTree} {word : String} {stack : List (List String)}
    (h : step (fragments forest) word = .ok stack) :
    ∃ forest', stack = fragments forest' ∧ wordsOf forest' = wordsOf forest ++ [word] := by
  rcases step_cases (fragments forest) word with
    ⟨hop, hok⟩ | ⟨op, rfl, ⟨-, herror⟩ | ⟨_, _, _, hforest, hok⟩⟩
  · obtain rfl := Except.ok.inj (hok.symm.trans h)
    exact ⟨.operand word hop :: forest, rfl, wordsOf_cons _ _⟩
  · cases herror.symm.trans h
  · obtain rfl := Except.ok.inj (hok.symm.trans h)
    obtain ⟨right, others, rfl, rfl, hothers⟩ := List.map_eq_cons_iff.1 hforest
    obtain ⟨left, forest, rfl, rfl, rfl⟩ := List.map_eq_cons_iff.1 hothers
    exact ⟨.node op left right :: forest, rfl, by simp [WordTree.postfixWords]⟩

theorem foldlM_step_fragments {words : List String} {forest : List WordTree}
    {stack : List (List String)} (h : words.foldlM step (fragments forest) = .ok stack) :
    ∃ forest', stack = fragments forest' ∧ wordsOf forest' = wordsOf forest ++ words := by
  induction words generalizing forest with
  | nil => exact ⟨forest, (Except.ok.inj h).symm, (List.append_nil _).symm⟩
  | cons word words ih =>
    obtain ⟨_, hstep, hrest⟩ := ReadError.foldlM_cons_eq_ok_iff.1 h
    obtain ⟨between, rfl, hbetween⟩ := step_fragments hstep
    obtain ⟨last, rfl, hlast⟩ := ih hrest
    exact ⟨last, rfl, by rw [hlast, hbetween, List.append_assoc, List.singleton_append]⟩

theorem finish_eq_ok_iff {stack : List (List String)} {fragment : List String} :
    finish stack = .ok fragment ↔ stack = [fragment] := by
  rcases stack with _ | ⟨first, _ | ⟨second, rest⟩⟩ <;> simp [finish]

theorem toPrefixWords_eq_ok_iff {words moved : List String} :
    toPrefixWords words = .ok moved ↔
      ∃ t : WordTree, t.postfixWords = words ∧ t.prefixWords = moved := by
  unfold toPrefixWords
  simp only [ReadError.bind_eq_ok_iff, finish_eq_ok_iff]
  constructor
  · rintro ⟨_, hfold, rfl⟩
    obtain ⟨forest, hforest, hwords⟩ := @foldlM_step_fragments words [] _ hfold
    obtain ⟨t, rfl, rfl⟩ := List.map_eq_singleton_iff.1 hforest.symm
    exact ⟨t, by simpa using hwords, rfl⟩
  · rintro ⟨t, rfl, rfl⟩
    exact ⟨_, foldlM_step_postfixWords t [], rfl⟩

end ArithTree.Postfix
