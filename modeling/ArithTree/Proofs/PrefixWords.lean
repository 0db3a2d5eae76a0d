import ArithTree.Prefix
import ArithTree.Proofs.WordTree

/-! What words with every operator before its operands are read as. Reading goes down the words as a
word tree goes down its nodes, and `room` is what is left of the nesting. Main statement: words are
read as an expression exactly when they are the words of a readable tree that denotes it. -/

namespace ArithTree.Prefix

variable {room : Nat} {words rest : List String} {e : Expr}

theorem readNode_operand_eq_ok_iff {word : String} (hw : Operator.ofSymbol? word = none) :
    readNode room (word :: words) = .ok (e, rest) ↔
      words = rest ∧ Numeral.IsLiteral word ∧ (WordTree.operand word hw).toExpr = e := by
  rw [readNode_operand hw, ReadError.map_eq_ok_iff]
  simp only [Numeral.read_eq_ok_iff_isLiteral, Prod.mk.injEq, WordTree.toExpr]
  constructor
  · rintro ⟨v, ⟨hliteral, rfl⟩, rfl, rfl⟩
    exact ⟨rfl, hliteral, rfl⟩
  · rintro ⟨rfl, hliteral, rfl⟩
    exact ⟨_, ⟨hliteral, rfl⟩, rfl, rfl⟩

theorem readNode_symbol_succ_eq_ok_iff {op : Operator} :
    readNode (room + 1) (op.symbol :: words) = .ok (e, rest) ↔
      ∃ left middle right, readNode room words = .ok (left, middle) ∧
        readNode room middle = .ok (right, rest) ∧ Expr.node op left right = e := by
  rw [readNode_symbol_succ]
  simp only [ReadError.bind_eq_ok_iff, Prod.exists, Except.ok.injEq, Prod.mk.injEq]
  constructor
  · rintro ⟨left, middle, hleft, right, last, hright, rfl, rfl⟩
    exact ⟨left, middle, right, hleft, hright, rfl⟩
  · rintro ⟨left, middle, right, hleft, hright, rfl⟩
    exact ⟨left, middle, hleft, right, rest, hright, rfl, rfl⟩

theorem readNode_prefixWords {t : WordTree} (ht : t.ReadableIn room) (rest : List String) :
    readNode room (t.prefixWords ++ rest) = .ok (t.toExpr, rest) := by
  induction t generalizing room rest with
  | operand word hw =>
    exact (readNode_operand_eq_ok_iff hw).2 ⟨rfl, WordTree.readableIn_operand.1 ht, rfl⟩
  | node op left right ihl ihr =>
    simp only [WordTree.prefixWords, List.cons_append, List.append_assoc]
    cases room with
    | zero => exact absurd ht WordTree.not_readableIn_zero_node
    | succ room =>
      obtain ⟨hl, hr⟩ := WordTree.readableIn_succ_node.1 ht
      exact readNode_symbol_succ_eq_ok_iff.2 ⟨_, _, _, ihl hl _, ihr hr _, rfl⟩

theorem exists_of_readNode_operand {word : String} (hw : Operator.ofSymbol? word = none)
    (h : readNode room (word :: words) = .ok (e, rest)) :
    ∃ t : WordTree, t.ReadableIn room ∧ t.prefixWords ++ rest = word :: words ∧ t.toExpr = e := by
  obtain ⟨rfl, hliteral, rfl⟩ := (readNode_operand_eq_ok_iff hw).1 h
  exact ⟨.operand word hw, WordTree.readableIn_operand.2 hliteral, rfl, rfl⟩

/-- Whatever is read takes up the words of a tree that fits into the room. -/
theorem exists_of_readNode (h : readNode room words = .ok (e, rest)) :
    ∃ t : WordTree, t.ReadableIn room ∧ t.prefixWords ++ rest = words ∧ t.toExpr = e := by
  induction room generalizing words e rest with
  | zero =>
    rcases words with _ | ⟨word, words⟩
    · simp [readNode_nil] at h
    cases hop : Operator.ofSymbol? word with
    | none => exact exists_of_readNode_operand hop h
    | some op =>
      rw [← Operator.ofSymbol?_eq_some_iff.1 hop, readNode_symbol_zero] at h
      cases h
  | succ room ih =>
    rcases words with _ | ⟨word, words⟩
    · simp [readNode_nil] at h
    cases hop : Operator.ofSymbol? word with
    | none => exact exists_of_readNode_operand hop h
    | some op =>
      obtain rfl := Operator.ofSymbol?_eq_some_iff.1 hop
      obtain ⟨left, middle, right, hleft, hright, rfl⟩ := readNode_symbol_succ_eq_ok_iff.1 h
      obtain ⟨l, hl, rfl, rfl⟩ := ih hleft
      obtain ⟨r, hr, rfl, rfl⟩ := ih hright
      exact ⟨.node op l r, WordTree.readableIn_succ_node.2 ⟨hl, hr⟩,
        by simp [WordTree.prefixWords], rfl⟩

theorem read_eq_ok_iff :
    read words = .ok e ↔ ∃ t : WordTree, t.Readable ∧ t.prefixWords = words ∧ t.toExpr = e := by
  unfold read
  rw [ReadError.bind_eq_ok_iff]
  constructor
  · rintro ⟨⟨root, extra⟩, hroot, h⟩
    cases extra with
    | cons word extra => cases h
    | nil =>
      obtain ⟨t, ht, rfl, rfl⟩ := exists_of_readNode hroot
      exact ⟨t, ht, (List.append_nil _).symm, Except.ok.inj h⟩
  · rintro ⟨t, ht, rfl, rfl⟩
    refine ⟨(t.toExpr, []), ?_, rfl⟩
    simpa using readNode_prefixWords ht []

end ArithTree.Prefix
