import ArithTree.Expr

/-! Trees over words. An operand is any word that writes no operator, so a word tree is what a list
of words says before anyone asks whether its operands are literals. It is `Readable` when they are
and no chain of operators is too long; the expression tree that it denotes then has the same shape.
Proved: the words of a tree in either order determine it, no list of two words or more has both
orders, and the texts of an expression are those of a readable word tree that denotes it. -/

namespace ArithTree

inductive WordTree where
  | operand (word : String) (isOperand : Operator.ofSymbol? word = none)
  | node (op : Operator) (left right : WordTree)

/-! ### Literals, operators and kept results of an expression -/

namespace Expr

/-- The literals, from left to right. -/
def literals : Expr → List Int32
  | literal v => [v]
  | binary _ left right _ => left.literals ++ right.literals

/-- The operators, each before those of its operands. -/
def operators : Expr → List Operator
  | literal _ => []
  | binary op left right _ => op :: (left.operators ++ right.operators)

/-- The kept results of the operator nodes, each after those of its operands. -/
def results : Expr → List Int32
  | literal _ => []
  | binary _ left right result => left.results ++ right.results ++ [result]

@[simp] theorem literals_cleared (e : Expr) : e.cleared.literals = e.literals := by
  induction e with
  | literal v => rfl
  | binary op left right result ihl ihr => simp [cleared, node, literals, ihl, ihr]

@[simp] theorem nesting_cleared (e : Expr) : e.cleared.nesting = e.nesting := by
  induction e with
  | literal v => rfl
  | binary op left right result ihl ihr => simp [cleared, node, nesting, ihl, ihr]

theorem cleared_eq_self_iff {e : Expr} : e.cleared = e ↔ ∀ v ∈ e.results, v = 0 := by
  induction e with
  | literal v => simp [cleared, results]
  | binary op left right result ihl ihr =>
    simp only [cleared, node, results, binary.injEq, ihl, ihr, List.mem_append,
      List.mem_singleton]
    constructor
    · rintro ⟨-, hl, hr, rfl⟩ v ((h | h) | rfl)
      · exact hl v h
      · exact hr v h
      · rfl
    · intro h
      exact ⟨trivial, fun v hv => h v (.inl (.inl hv)), fun v hv => h v (.inl (.inr hv)),
        (h result (.inr rfl)).symm⟩

end Expr

namespace Numeral

/-- A numeral that fits a machine word. -/
structure IsLiteral (word : String) : Prop where
  isNumeral : isNumeral word = true
  inRange : value word ≤ 2147483647

instance (word : String) : Decidable (IsLiteral word) :=
  decidable_of_iff (Numeral.isNumeral word = true ∧ value word ≤ 2147483647)
    ⟨fun h => ⟨h.1, h.2⟩, fun h => ⟨h.isNumeral, h.inRange⟩⟩

theorem IsLiteral.toInt_ofNat_value {word : String} (h : IsLiteral word) :
    (Int32.ofNat (value word)).toInt = value word :=
  Int32.toInt_ofNat_of_lt (by have := h.inRange; omega)

theorem read_eq_ok_iff_isLiteral {word : String} {v : Int32} :
    read word = .ok v ↔ IsLiteral word ∧ Int32.ofNat (value word) = v := by
  rw [read_eq_ok_iff]
  constructor
  · rintro ⟨hnumeral, hvalue⟩
    have hlt := Int32.toInt_lt v
    have hliteral : IsLiteral word := ⟨hnumeral, by omega⟩
    exact ⟨hliteral, Int32.toInt_inj.1 (hliteral.toInt_ofNat_value.trans hvalue.symm)⟩
  · rintro ⟨hliteral, rfl⟩
    exact ⟨hliteral.isNumeral, hliteral.toInt_ofNat_value⟩

end Numeral

namespace WordTree

/-! ### Words -/

/-- The operands, from left to right. -/
def operands : WordTree → List String
  | operand word _ => [word]
  | node _ left right => left.operands ++ right.operands

/-- The longest chain of operators, each an operand of the one before it. -/
def nesting : WordTree → Nat
  | operand .. => 0
  | node _ left right => max left.nesting right.nesting + 1

/-- Every operator before its operands. -/
def prefixWords : WordTree → List String
  | operand word _ => [word]
  | node op left right => op.symbol :: (left.prefixWords ++ right.prefixWords)

/-- Every operator after its operands. -/
def postfixWords : WordTree → List String
  | operand word _ => [word]
  | node op left right => left.postfixWords ++ right.postfixWords ++ [op.symbol]

theorem prefixWords_append_inj {t t' : WordTree} {rest rest' : List String}
    (h : t.prefixWords ++ rest = t'.prefixWords ++ rest') : t = t' ∧ rest = rest' := by
  induction t generalizing t' rest rest' with
  | operand word hw =>
    cases t' with
    | operand word' hw' => simpa [prefixWords] using h
    | node op' left' right' =>
      simp only [prefixWords, List.cons_append, List.nil_append, List.cons.injEq] at h
      simp [h.1] at hw
  | node op left right ihl ihr =>
    cases t' with
    | operand word' hw' =>
      simp only [prefixWords, List.cons_append, List.nil_append, List.cons.injEq] at h
      simp [← h.1] at hw'
    | node op' left' right' =>
      simp only [prefixWords, List.cons_append, List.append_assoc, List.cons.injEq] at h
      obtain ⟨hop, hwords⟩ := h
      obtain ⟨rfl, hright⟩ := ihl hwords
      obtain ⟨rfl, hrest⟩ := ihr hright
      exact ⟨by rw [Operator.symbol_injective hop], hrest⟩

theorem prefixWords_injective {t t' : WordTree} (h : t.prefixWords = t'.prefixWords) : t = t' :=
  (@prefixWords_append_inj t t' [] [] (by simpa using h)).1

theorem head?_postfixWords (t : WordTree) :
    ∃ word, t.postfixWords.head? = some word ∧ Operator.ofSymbol? word = none := by
  induction t with
  | operand word hw => exact ⟨word, rfl, hw⟩
  | node op left right ihl ihr =>
    obtain ⟨word, hhead, hw⟩ := ihl
    exact ⟨word, by simp [postfixWords, List.head?_append, hhead], hw⟩

/-- Of two words or more, the first is an operator in one order and an operand in the other. -/
theorem prefixWords_ne_postfixWords {t t' : WordTree} (h : 2 ≤ t.prefixWords.length) :
    t.prefixWords ≠ t'.postfixWords := by
  intro heq
  obtain ⟨word, hhead, hw⟩ := head?_postfixWords t'
  cases t with
  | operand word hw => simp [prefixWords] at h
  | node op left right =>
    rw [← heq] at hhead
    simp only [prefixWords, List.head?_cons, Option.some.injEq] at hhead
    simp [← hhead] at hw

/-! ### Denoted expressions -/

/-- The expression of a word tree, its results not kept yet. -/
def toExpr : WordTree → Expr
  | operand word _ => .literal (Int32.ofNat (Numeral.value word))
  | node op left right => .node op left.toExpr right.toExpr

/-- Every operand is a literal, and no chain of operators is longer than `room`. -/
structure ReadableIn (room : Nat) (t : WordTree) : Prop where
  literals : ∀ word ∈ t.operands, Numeral.IsLiteral word
  shallow : t.nesting ≤ room

instance (room : Nat) (t : WordTree) : Decidable (t.ReadableIn room) :=
  decidable_of_iff ((∀ word ∈ t.operands, Numeral.IsLiteral word) ∧ t.nesting ≤ room)
    ⟨fun h => ⟨h.1, h.2⟩, fun h => ⟨h.literals, h.shallow⟩⟩

/-- Every operand is a literal, and no chain of operators is longer than `maxNesting`. -/
abbrev Readable (t : WordTree) : Prop := t.ReadableIn maxNesting

theorem readableIn_operand {room : Nat} {word : String} {hw : Operator.ofSymbol? word = none} :
    (operand word hw).ReadableIn room ↔ Numeral.IsLiteral word :=
  ⟨fun h => h.literals word (by simp [operands]),
    fun h => ⟨by simpa [operands] using h, Nat.zero_le room⟩⟩

theorem not_readableIn_zero_node {op : Operator} {left right : WordTree} :
    ¬(node op left right).ReadableIn 0 :=
  fun h => absurd h.shallow (by simp [nesting])

theorem readableIn_succ_node {room : Nat} {op : Operator} {left right : WordTree} :
    (node op left right).ReadableIn (room + 1) ↔ left.ReadableIn room ∧ right.ReadableIn room := by
  constructor
  · rintro ⟨hliterals, hshallow⟩
    simp only [operands, List.mem_append] at hliterals
    simp only [nesting] at hshallow
    exact ⟨⟨fun word hw => hliterals word (.inl hw), by omega⟩,
      ⟨fun word hw => hliterals word (.inr hw), by omega⟩⟩
  · rintro ⟨hl, hr⟩
    refine ⟨?_, ?_⟩
    · intro word hw
      rcases List.mem_append.1 hw with hw | hw
      · exact hl.literals word hw
      · exact hr.literals word hw
    · have := hl.shallow
      have := hr.shallow
      simp only [nesting]
      omega

@[simp] theorem nesting_toExpr (t : WordTree) : t.toExpr.nesting = t.nesting := by
  induction t with
  | operand word hw => rfl
  | node op left right ihl ihr => simp [toExpr, Expr.node, Expr.nesting, nesting, ihl, ihr]

@[simp] theorem cleared_toExpr (t : WordTree) : t.toExpr.cleared = t.toExpr := by
  induction t with
  | operand word hw => rfl
  | node op left right ihl ihr => simp [toExpr, Expr.node, Expr.cleared, ihl, ihr]

theorem literals_toExpr (t : WordTree) :
    t.toExpr.literals = t.operands.map fun word => Int32.ofNat (Numeral.value word) := by
  induction t with
  | operand word hw => rfl
  | node op left right ihl ihr => simp [toExpr, Expr.node, Expr.literals, operands, ihl, ihr]

theorem ReadableIn.literals_nonneg {room : Nat} {t : WordTree} (h : t.ReadableIn room) :
    ∀ v ∈ t.toExpr.literals, 0 ≤ v.toInt := by
  intro v hv
  rw [literals_toExpr, List.mem_map] at hv
  obtain ⟨word, hword, rfl⟩ := hv
  rw [(h.literals word hword).toInt_ofNat_value]
  omega

end WordTree

/-! ### Words of an expression -/

theorem Numeral.ofSymbol?_text (v : Int32) : Operator.ofSymbol? (text v) = none := by
  unfold text
  cases hv : v.toInt with
  | ofNat n => exact ofSymbol?_of_isNumeral (isNumeral_repr n)
  | negSucc n =>
    cases hop : Operator.ofSymbol? (Int.negSucc n).repr with
    | none => rfl
    | some op =>
      -- a sign and a digit are too long for a symbol
      have hlength := congrArg (·.toList.length) (Operator.ofSymbol?_eq_some_iff.1 hop)
      simp [Int.repr] at hlength

theorem Numeral.isDigit_of_mem_repr {n : Nat} {c : Char} (h : c ∈ n.repr.toList) :
    c.isDigit = true :=
  Nat.isDigit_of_mem_toDigits (by decide) (by decide) (Nat.toList_repr ▸ h)

theorem Numeral.repr_negSucc (n : Nat) : (Int.negSucc n).repr = "-" ++ (n + 1).repr := rfl

theorem Numeral.isDigit_or_minus {n : Int} {c : Char} (h : c ∈ n.repr.toList) :
    c.isDigit = true ∨ c = '-' := by
  cases n with
  | ofNat n => exact .inl (isDigit_of_mem_repr h)
  | negSucc n =>
    rw [repr_negSucc, String.toList_append, List.mem_append] at h
    rcases h with h | h
    · exact .inr (by simpa using h)
    · exact .inl (isDigit_of_mem_repr h)

/-- No other character is in a decimal text. -/
theorem Numeral.not_mem_repr {c : Char} (hdigit : c.isDigit = false) (hminus : c ≠ '-') (n : Int) :
    c ∉ n.repr.toList := by
  intro hmem
  rcases isDigit_or_minus hmem with h | h
  · simp [h] at hdigit
  · exact hminus h

theorem Numeral.not_mem_text {c : Char} (hdigit : c.isDigit = false) (hminus : c ≠ '-')
    (v : Int32) : c ∉ (text v).toList :=
  not_mem_repr hdigit hminus v.toInt

theorem Numeral.text_ne_empty (v : Int32) : text v ≠ "" := by
  unfold text
  cases v.toInt with
  | ofNat n =>
    intro hempty
    have hnumeral : isNumeral "" = true := hempty ▸ isNumeral_repr n
    exact absurd hnumeral (by decide)
  | negSucc n => simp [repr_negSucc]

theorem Numeral.repr_ne_repr_negSucc (m n : Nat) : m.repr ≠ (Int.negSucc n).repr := by
  intro h
  have hminus : '-' ∈ m.repr.toList := by simp [h, repr_negSucc]
  exact absurd (isDigit_of_mem_repr hminus) (by decide)

theorem Numeral.text_injective {v w : Int32} (h : text v = text w) : v = w := by
  have hnat : ∀ {m n : Nat}, m.repr = n.repr → m = n := fun {m n} hmn => by
    rw [← value_repr m, hmn, value_repr]
  unfold text at h
  apply Int32.toInt_inj.1
  cases hv : v.toInt with
  | ofNat m =>
    cases hw : w.toInt with
    | ofNat n =>
      rw [hv, hw] at h
      exact congrArg Int.ofNat (hnat h)
    | negSucc n =>
      rw [hv, hw] at h
      exact absurd h (repr_ne_repr_negSucc m n)
  | negSucc m =>
    cases hw : w.toInt with
    | ofNat n =>
      rw [hv, hw] at h
      exact absurd h.symm (repr_ne_repr_negSucc n m)
    | negSucc n =>
      rw [hv, hw, repr_negSucc, repr_negSucc, String.append_right_inj] at h
      exact congrArg Int.negSucc (Nat.succ_inj.1 (hnat h))

namespace Expr

/-- The words of an expression as a tree. -/
def wordTree : Expr → WordTree
  | literal v => .operand (Numeral.text v) (Numeral.ofSymbol?_text v)
  | binary op left right _ => .node op left.wordTree right.wordTree

@[simp] theorem prefixWords_wordTree (e : Expr) : e.wordTree.prefixWords = e.prefixWords := by
  induction e with
  | literal v => rfl
  | binary op left right result ihl ihr =>
    simp [wordTree, WordTree.prefixWords, prefixWords, ihl, ihr]

@[simp] theorem postfixWords_wordTree (e : Expr) : e.wordTree.postfixWords = e.postfixWords := by
  induction e with
  | literal v => rfl
  | binary op left right result ihl ihr =>
    simp [wordTree, WordTree.postfixWords, postfixWords, ihl, ihr]

theorem operands_wordTree (e : Expr) : e.wordTree.operands = e.literals.map Numeral.text := by
  induction e with
  | literal v => rfl
  | binary op left right result ihl ihr => simp [wordTree, WordTree.operands, literals, ihl, ihr]

@[simp] theorem nesting_wordTree (e : Expr) : e.wordTree.nesting = e.nesting := by
  induction e with
  | literal v => rfl
  | binary op left right result ihl ihr => simp [wordTree, WordTree.nesting, nesting, ihl, ihr]

theorem text_of_nonneg {v : Int32} (h : 0 ≤ v.toInt) : Numeral.text v = v.toInt.toNat.repr := by
  unfold Numeral.text
  obtain ⟨n, hn⟩ := Int.eq_ofNat_of_zero_le h
  rw [hn]
  rfl

theorem isLiteral_text {v : Int32} (h : 0 ≤ v.toInt) : Numeral.IsLiteral (Numeral.text v) := by
  rw [text_of_nonneg h]
  refine ⟨Numeral.isNumeral_repr _, ?_⟩
  rw [Numeral.value_repr]
  have := Int32.toInt_lt v
  omega

theorem readable_wordTree {e : Expr} (hliterals : ∀ v ∈ e.literals, 0 ≤ v.toInt)
    (hnesting : e.nesting ≤ maxNesting) : e.wordTree.Readable := by
  refine ⟨?_, by simpa using hnesting⟩
  intro word hword
  rw [operands_wordTree, List.mem_map] at hword
  obtain ⟨v, hv, rfl⟩ := hword
  exact isLiteral_text (hliterals v hv)

theorem toExpr_wordTree {e : Expr} (hliterals : ∀ v ∈ e.literals, 0 ≤ v.toInt) :
    e.wordTree.toExpr = e.cleared := by
  induction e with
  | literal v =>
    have hv := hliterals v (by simp [literals])
    simp only [wordTree, WordTree.toExpr, cleared, literal.injEq, text_of_nonneg hv,
      Numeral.value_repr]
    apply Int32.toInt_inj.1
    rw [Int32.toInt_ofNat_of_lt (by have := Int32.toInt_lt v; omega)]
    exact Int.toNat_of_nonneg hv
  | binary op left right result ihl ihr =>
    simp only [literals, List.mem_append] at hliterals
    simp [wordTree, WordTree.toExpr, cleared, ihl fun v hv => hliterals v (.inl hv),
      ihr fun v hv => hliterals v (.inr hv)]

end Expr

end ArithTree
