import ArithTree.Proofs.InfixGrammar
import ArithTree.Proofs.PostfixWords

/-! What rearranging words leaves alone. The inventory of a list of words is its numerals in their
order, and how often it has each operator; parentheses have no part in it. A scan emits numerals at
once and operators later, so at every moment the operators read so far are emitted or wait. Main
statements: whatever words the scan accepts, in the grammar or outside it, it gives their inventory
back, and so do the two orders of a word tree. -/

namespace ArithTree

/-- The same numerals in the same order, and every operator equally often. -/
structure SameInventory (words words' : List String) : Prop where
  numerals : words.filter Numeral.isNumeral = words'.filter Numeral.isNumeral
  operators : ∀ op : Operator, words.count op.symbol = words'.count op.symbol

namespace SameInventory

variable {words words' words'' : List String} {word : String}

theorem refl (words : List String) : SameInventory words words := ⟨rfl, fun _ => rfl⟩

theorem symm (h : SameInventory words words') : SameInventory words' words :=
  ⟨h.numerals.symm, fun op => (h.operators op).symm⟩

theorem trans (h : SameInventory words words') (h' : SameInventory words' words'') :
    SameInventory words words'' :=
  ⟨h.numerals.trans h'.numerals, fun op => (h.operators op).trans (h'.operators op)⟩

theorem append {others others' : List String} (h : SameInventory words words')
    (h' : SameInventory others others') : SameInventory (words ++ others) (words' ++ others') :=
  ⟨by rw [List.filter_append, List.filter_append, h.numerals, h'.numerals],
    fun op => by rw [List.count_append, List.count_append, h.operators, h'.operators]⟩

theorem cons (word : String) (h : SameInventory words words') :
    SameInventory (word :: words) (word :: words') :=
  (refl [word]).append h

/-- A word may pass words that are no numerals. -/
theorem cons_comm (h : ∀ other ∈ words, Numeral.isNumeral other = false) (word : String) :
    SameInventory (words ++ word :: words') (word :: (words ++ words')) := by
  have hnone : words.filter Numeral.isNumeral = [] := by simpa using h
  refine ⟨?_, fun op => ?_⟩
  · rw [List.filter_append, List.filter_cons, List.filter_cons, List.filter_append, hnone,
      List.nil_append, List.nil_append]
  · exact List.perm_middle.count_eq op.symbol

/-- An operator may pass any words. -/
theorem symbol_comm (op : Operator) (words words' : List String) :
    SameInventory (words ++ op.symbol :: words') (op.symbol :: (words ++ words')) := by
  refine ⟨?_, fun op' => List.perm_middle.count_eq op'.symbol⟩
  simp [Numeral.isNumeral_symbol]

theorem cons_of_not (hnumeral : Numeral.isNumeral word = false)
    (hsymbol : ∀ op : Operator, word ≠ op.symbol) (words : List String) :
    SameInventory (word :: words) words :=
  ⟨by simp [hnumeral], fun op => List.count_cons_of_ne (hsymbol op)⟩

theorem opening_cons (words : List String) : SameInventory ("(" :: words) words :=
  cons_of_not (by decide) (by intro op; cases op <;> decide) words

theorem closing_cons (words : List String) : SameInventory (")" :: words) words :=
  cons_of_not (by decide) (by intro op; cases op <;> decide) words

end SameInventory

/-! ### Word trees -/

namespace WordTree

theorem sameInventory_postfixWords (t : WordTree) :
    SameInventory t.postfixWords t.prefixWords := by
  induction t with
  | operand word hw => exact .refl _
  | node op left right ihl ihr =>
    rw [postfixWords, prefixWords]
    have hmoved := SameInventory.symbol_comm op (left.postfixWords ++ right.postfixWords) []
    rw [List.append_nil] at hmoved
    exact hmoved.trans ((ihl.append ihr).cons op.symbol)

theorem filter_prefixWords {t : WordTree}
    (h : ∀ word ∈ t.operands, Numeral.isNumeral word = true) :
    t.prefixWords.filter Numeral.isNumeral = t.operands := by
  induction t with
  | operand word hw => simpa [prefixWords, operands] using h
  | node op left right ihl ihr =>
    simp only [operands, List.mem_append] at h
    have hl := ihl fun word hword => h word (.inl hword)
    have hr := ihr fun word hword => h word (.inr hword)
    simp [prefixWords, operands, Numeral.isNumeral_symbol, hl, hr]

theorem count_prefixWords (t : WordTree) (op : Operator) :
    t.prefixWords.count op.symbol = t.toExpr.operators.count op := by
  induction t with
  | operand word hw =>
    have hne : word ≠ op.symbol := by
      rintro rfl
      simp at hw
    simp [prefixWords, toExpr, Expr.operators, hne]
  | node op' left right ihl ihr =>
    have hsymbol : (op'.symbol == op.symbol) = (op' == op) := by
      rw [Bool.eq_iff_iff, beq_iff_eq, beq_iff_eq]
      exact ⟨Operator.symbol_injective, congrArg Operator.symbol⟩
    simp only [prefixWords, toExpr, Expr.node, Expr.operators, List.count_cons, List.count_append,
      ihl, ihr, hsymbol]

end WordTree

/-! ### Scans -/

namespace Infix

/-- The word that waits, if it is one that will be emitted. -/
def Held.words : Held → List String
  | .opening => []
  | .operator op => [op.symbol]

namespace Yard

/-- What waits and what has been emitted. -/
def content (yard : Yard) : List String := yard.held.flatMap Held.words ++ yard.emitted

variable {yard yard' : Yard} {emitted out words : List String} {held : List Held} {word : String}

/-- An operator that is released moves from what waits to what has been emitted. -/
theorem content_release (op : Operator) (emitted : List String) (held : List Held) :
    SameInventory (content ⟨op.symbol :: emitted, held⟩)
      (content ⟨emitted, .operator op :: held⟩) :=
  .symbol_comm op (held.flatMap Held.words) emitted

theorem content_numeral (word : String) (emitted : List String) (held : List Held) :
    SameInventory (content ⟨word :: emitted, held⟩) (word :: content ⟨emitted, held⟩) := by
  refine .cons_comm ?_ word
  intro other hother
  obtain ⟨entry, -, hother⟩ := List.mem_flatMap.1 hother
  cases entry with
  | opening => cases hother
  | operator op => rw [List.mem_singleton.1 hother, Numeral.isNumeral_symbol]

theorem receive_content (op : Operator) (emitted : List String) (held : List Held) :
    SameInventory (receive op emitted held).content (op.symbol :: content ⟨emitted, held⟩) := by
  induction held generalizing emitted with
  | nil => exact .refl _
  | cons entry held ih =>
    cases entry with
    | opening => exact .refl _
    | operator top =>
      rw [receive]
      split
      · exact (ih _).trans ((content_release top emitted held).cons op.symbol)
      · exact .refl _

theorem close_content (h : close emitted held = .ok yard) :
    SameInventory yard.content (content ⟨emitted, held⟩) := by
  induction held generalizing emitted with
  | nil => cases h
  | cons entry held ih =>
    cases entry with
    | opening =>
      obtain rfl := Except.ok.inj h
      exact .refl _
    | operator top => exact (ih h).trans (content_release top emitted held)

theorem drain_content (h : drain emitted held = .ok out) :
    SameInventory out (content ⟨emitted, held⟩) := by
  induction held generalizing emitted with
  | nil =>
    obtain rfl := Except.ok.inj h
    exact .refl _
  | cons entry held ih =>
    cases entry with
    | opening => cases h
    | operator top => exact (ih h).trans (content_release top emitted held)

/-- One word, whatever it is, comes to the content, and nothing else is lost or made. -/
theorem step_content (h : yard.step word = .ok yard') :
    SameInventory yard'.content (word :: yard.content) := by
  by_cases hnumeral : Numeral.isNumeral word = true
  · rw [step_numeral hnumeral] at h
    obtain rfl := Except.ok.inj h
    exact content_numeral word yard.emitted yard.held
  by_cases hopening : word = "("
  · rw [hopening, step_opening] at h
    obtain rfl := Except.ok.inj h
    rw [hopening]
    exact (SameInventory.opening_cons _).symm
  by_cases hclosing : word = ")"
  · rw [hclosing, step_closing] at h
    rw [hclosing]
    exact (close_content h).trans (SameInventory.closing_cons _).symm
  cases hop : Operator.ofSymbol? word with
  | none => simp [step, hnumeral, hopening, hclosing, hop] at h
  | some op =>
    obtain rfl := Operator.ofSymbol?_eq_some_iff.1 hop
    rw [step_symbol] at h
    obtain rfl := Except.ok.inj h
    exact receive_content op yard.emitted yard.held

theorem foldlM_step_content (h : words.foldlM step yard = .ok yard') :
    SameInventory yard'.content (words.reverse ++ yard.content) := by
  induction words generalizing yard with
  | nil =>
    obtain rfl := Except.ok.inj h
    exact .refl _
  | cons word words ih =>
    obtain ⟨between, hstep, hrest⟩ := ReadError.foldlM_cons_eq_ok_iff.1 h
    have hmoved := (ih hrest).trans ((SameInventory.refl words.reverse).append (step_content hstep))
    rwa [← List.singleton_append, ← List.append_assoc, ← List.reverse_cons] at hmoved

end Yard

variable {words moved : List String}

theorem sameInventory_scan (h : scan words = .ok moved) : SameInventory moved words.reverse := by
  rw [scan, ReadError.bind_eq_ok_iff] at h
  obtain ⟨yard, hfold, hdrain⟩ := h
  have hcontent := Yard.foldlM_step_content hfold
  have hempty : Yard.empty.content = [] := rfl
  rw [hempty, List.append_nil] at hcontent
  exact (Yard.drain_content hdrain).trans hcontent

theorem sameInventory_facing (word : String) : SameInventory [facing word] [word] := by
  unfold facing
  split
  · next hopening =>
    rw [hopening]
    exact (SameInventory.closing_cons []).trans (SameInventory.opening_cons []).symm
  · split
    · next hclosing =>
      rw [hclosing]
      exact (SameInventory.opening_cons []).trans (SameInventory.closing_cons []).symm
    · exact .refl _

theorem sameInventory_map_facing (words : List String) :
    SameInventory (words.map facing) words := by
  induction words with
  | nil => exact .refl _
  | cons word words ih => exact (sameInventory_facing word).append ih

/-- Turning the words round twice, once before the scan and once in it, keeps the numerals in
order. -/
theorem sameInventory_toPrefixWords (h : toPrefixWords words = .ok moved) :
    SameInventory moved words := by
  have hscan := sameInventory_scan h
  rw [backwards, ← List.map_reverse, List.reverse_reverse] at hscan
  exact hscan.trans (sameInventory_map_facing words)

end Infix

end ArithTree
