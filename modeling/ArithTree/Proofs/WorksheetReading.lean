import ArithTree.Proofs.Readings
import ArithTree.Worksheet

/-! What a worksheet shows of a text that was just put on it. Main statements: each of the three
texts of an expression is read back as that expression; a text with a space inside is valid exactly
when its fields are the words of a readable tree in one of the two orders; and the text of a phrase
is read as the tree of the phrase, which groups every chain to the left. -/

namespace ArithTree.Worksheet

variable {input : String}

theorem ofText_of_reading {reading : Reading} (h : Reading.ofText input = .ok reading) :
    ofText input =
      { root := reading.root, valid := true, error := none, written := some reading.written } := by
  unfold ofText
  rw [h]
  rfl

theorem ofText_of_error {cause : ReadError} (h : Reading.ofText input = .error cause) :
    ofText input = { valid := false, error := some cause } := by
  unfold ofText
  rw [h]
  rfl

theorem exists_reading_of_root {e : Expr} (h : (ofText input).root = some e) :
    ∃ written, Reading.ofText input = .ok ⟨written, some e⟩ := by
  cases hread : Reading.ofText input with
  | error cause => simp [ofText_of_error hread] at h
  | ok reading =>
    rw [ofText_of_reading hread] at h
    exact ⟨reading.written, by rw [← h]⟩

theorem valid_ofText_iff :
    (ofText input).valid = true ↔ ∃ reading, Reading.ofText input = .ok reading := by
  unfold ofText
  cases Reading.ofText input <;> simp [blank]

/-! ### The texts of an expression -/

section Texts

variable {op : Operator} {left right e : Expr} {result : Int32}

theorem isNumeral_toInfix_binary :
    Numeral.isNumeral (Expr.binary op left right result).toInfix = false := by
  cases hnumeral : Numeral.isNumeral (Expr.binary op left right result).toInfix with
  | false => rfl
  | true =>
    have hopening : '(' ∈ (Expr.binary op left right result).toInfix.toList := by
      simp [Expr.toInfix]
    exact absurd hopening (Lexeme.not_mem_of_isNumeral hnumeral (by decide))

theorem readingOfText_toPrefix_binary (h : (Expr.binary op left right result).wordTree.Readable) :
    Reading.ofText (Expr.binary op left right result).toPrefix =
      .ok ⟨.prefixed, some (Expr.binary op left right result).wordTree.toExpr⟩ := by
  have htwo : 2 ≤ (Expr.binary op left right result).prefixWords.length := by
    rw [Expr.length_prefixWords, Expr.operationCount]
    omega
  rw [← Expr.prefixWords_wordTree] at htwo
  have hread := Reading.ofText_intercalate_prefixWords h htwo
  rwa [Expr.prefixWords_wordTree] at hread

theorem readingOfText_toPostfix_binary (h : (Expr.binary op left right result).wordTree.Readable) :
    Reading.ofText (Expr.binary op left right result).toPostfix =
      .ok ⟨.postfixed, some (Expr.binary op left right result).wordTree.toExpr⟩ := by
  have htwo : 2 ≤ (Expr.binary op left right result).postfixWords.length := by
    rw [Expr.length_postfixWords, Expr.operationCount]
    omega
  rw [← Expr.postfixWords_wordTree] at htwo
  have hread := Reading.ofText_intercalate_postfixWords h htwo
  rwa [Expr.postfixWords_wordTree] at hread

theorem readingOfText_toInfix_binary
    (hliterals : ∀ v ∈ (Expr.binary op left right result).literals, 0 ≤ v.toInt)
    (h : (Expr.binary op left right result).wordTree.Readable) :
    Reading.ofText (Expr.binary op left right result).toInfix =
      .ok ⟨.infixed, some (Expr.binary op left right result).wordTree.toExpr⟩ := by
  obtain ⟨phrase, htext, htree⟩ := Infix.exists_phrase_toInfix hliterals
  have hread := Infix.ofText_text phrase (by rwa [htree])
  rwa [htext, htree, isNumeral_toInfix_binary] at hread

/-- An expression that no evaluation has reached is read back from each of its texts, with the
notation of that text; a literal is written alike in all three, and taken for the first. -/
theorem ofText_toPrefix_toPostfix_toInfix (hliterals : ∀ v ∈ e.literals, 0 ≤ v.toInt)
    (hnesting : e.nesting ≤ maxNesting) (hresults : ∀ v ∈ e.results, v = 0) :
    ofText e.toPrefix =
        { root := some e, valid := true, error := none, written := some .prefixed } ∧
      ofText e.toPostfix =
        { root := some e, valid := true, error := none,
          written := some (if e.isLeaf then .prefixed else .postfixed) } ∧
      ofText e.toInfix =
        { root := some e, valid := true, error := none,
          written := some (if e.isLeaf then .prefixed else .infixed) } := by
  have hreadable : e.wordTree.Readable := Expr.readable_wordTree hliterals hnesting
  have hroot : e.wordTree.toExpr = e := by
    rw [Expr.toExpr_wordTree hliterals, Expr.cleared_eq_self_iff.2 hresults]
  cases e with
  | literal v =>
    have hread := Reading.ofText_of_isLiteral
      (Expr.isLiteral_text (hliterals v (by simp [Expr.literals])))
    rw [Expr.wordTree, WordTree.toExpr] at hroot
    rw [hroot] at hread
    have hsheet := ofText_of_reading hread
    simp only [Expr.toPrefix, Expr.toPostfix, Expr.prefixWords, Expr.postfixWords,
      String.intercalate_singleton]
    exact ⟨hsheet, hsheet, hsheet⟩
  | binary op left right result =>
    have hbefore := readingOfText_toPrefix_binary hreadable
    have hafter := readingOfText_toPostfix_binary hreadable
    have hinfix := readingOfText_toInfix_binary hliterals hreadable
    rw [hroot] at hbefore hafter hinfix
    exact ⟨ofText_of_reading hbefore, ofText_of_reading hafter, ofText_of_reading hinfix⟩

end Texts

/-- The longest literal beside the shortest, under three operators of three precedences. -/
theorem ofText_texts_of_mixed_chain :
    let e : Expr := .node .pow (.node .sub (.literal 2147483647) (.literal 0))
      (.node .mod (.literal 7) (.literal 10))
    ((∀ v ∈ e.literals, 0 ≤ v.toInt) ∧ e.nesting ≤ maxNesting ∧ ∀ v ∈ e.results, v = 0) ∧
      (ofText e.toPrefix =
          { root := some e, valid := true, error := none, written := some .prefixed } ∧
        ofText e.toPostfix =
          { root := some e, valid := true, error := none,
            written := some (if e.isLeaf then .prefixed else .postfixed) } ∧
        ofText e.toInfix =
          { root := some e, valid := true, error := none,
            written := some (if e.isLeaf then .prefixed else .infixed) }) := by
  intro e
  have hliterals : ∀ v ∈ e.literals, 0 ≤ v.toInt := by simp [e, Expr.node, Expr.literals]
  have hnesting : e.nesting ≤ maxNesting := by decide
  have hresults : ∀ v ∈ e.results, v = 0 := by simp [e, Expr.node, Expr.results]
  exact ⟨⟨hliterals, hnesting, hresults⟩,
    ofText_toPrefix_toPostfix_toInfix hliterals hnesting hresults⟩

/-! ### Phrases -/

/-- Any phrase is rearranged into the words of its tree, its numerals untouched and its parentheses
gone; and its text is read as that tree where the numerals are literals and the tree is not too
deep. -/
theorem toPrefixWords_and_ofText_phrase (phrase : Infix.Phrase 1) :
    Infix.toPrefixWords phrase.words = .ok phrase.tree.prefixWords ∧
      (phrase.tree.Readable →
        (ofText phrase.text).valid = true ∧ (ofText phrase.text).error = none ∧
          (ofText phrase.text).root = some phrase.tree.toExpr) := by
  refine ⟨Infix.toPrefixWords_phrase phrase, ?_⟩
  intro hreadable
  rw [ofText_of_reading (Infix.ofText_text phrase hreadable)]
  exact ⟨rfl, rfl, rfl⟩

/-- The phrase `9-4^2^0-(07)`: two chains, a group, and a numeral with a leading zero. -/
theorem toPrefixWords_and_ofText_two_chains :
    let phrase : Infix.Phrase 1 :=
      .chain (.chain (.chain (.numeral "9" (by decide)) .nil) .nil)
        (.cons "-" .sub .minus (.chain (.chain (.numeral "4" (by decide))
            (.cons "^" .pow .power (.numeral "2" (by decide))
              (.cons "^" .pow .power (.numeral "0" (by decide)) .nil))) .nil)
          (.cons "-" .sub .minus (.chain (.chain (.group (.chain (.chain (.chain
            (.numeral "07" (by decide)) .nil) .nil) .nil)) .nil) .nil) .nil))
    (phrase.text = "9-4^2^0-(07)" ∧ phrase.tree.Readable) ∧
      (Infix.toPrefixWords phrase.words = .ok ["-", "-", "9", "^", "^", "4", "2", "0", "07"] ∧
        (ofText phrase.text).valid = true ∧ (ofText phrase.text).error = none ∧
          (ofText phrase.text).root = some (.node .sub (.node .sub (.literal 9)
            (.node .pow (.node .pow (.literal 4) (.literal 2)) (.literal 0))) (.literal 7))) := by
  intro phrase
  have hreadable : phrase.tree.Readable := by decide
  obtain ⟨hwords, hsheet⟩ := toPrefixWords_and_ofText_phrase phrase
  exact ⟨⟨by decide, hreadable⟩, hwords, hsheet hreadable⟩

/-! ### Texts with a space inside -/

theorem not_paren_mem_of_readable {t : WordTree} (h : t.Readable) {word : String}
    (hword : word ∈ t.prefixWords) : '(' ∉ word.toList ∧ ')' ∉ word.toList := by
  rcases WordTree.operand_or_symbol_of_mem_prefixWords hword with hoperand | ⟨op, rfl⟩
  · have hnumeral := (h.literals word hoperand).isNumeral
    exact ⟨Lexeme.not_mem_of_isNumeral hnumeral (by decide),
      Lexeme.not_mem_of_isNumeral hnumeral (by decide)⟩
  · cases op <;> decide

theorem not_paren_mem_of_fields {t : WordTree} (h : t.Readable)
    (hfields : ∀ word ∈ Text.fields input, word ∈ t.prefixWords) :
    '(' ∉ input.toList ∧ ')' ∉ input.toList := by
  have hwords : ∀ word ∈ Text.fields input, '(' ∉ word.toList ∧ ')' ∉ word.toList :=
    fun word hword => not_paren_mem_of_readable h (hfields word hword)
  exact ⟨Text.not_mem_of_fields (by decide) fun word hword => (hwords word hword).1,
    Text.not_mem_of_fields (by decide) fun word hword => (hwords word hword).2⟩

theorem ofText_of_space (halphabet : ∀ c ∈ input.toList, Lexeme.inAlphabet c = true)
    (hspace : ' ' ∈ (Text.trim input).toList) :
    ((ofText input).valid = true ↔
        (∃ t : WordTree, t.Readable ∧ t.prefixWords = Text.fields input) ∨
          ∃ t : WordTree, t.Readable ∧ t.postfixWords = Text.fields input) ∧
      (∀ t : WordTree, t.Readable → t.prefixWords = Text.fields input →
        (ofText input).written = some .prefixed ∧ (ofText input).root = some t.toExpr) ∧
      (∀ t : WordTree, t.Readable → t.postfixWords = Text.fields input →
        (ofText input).written = some .postfixed ∧ (ofText input).root = some t.toExpr) ∧
      (∀ t t' : WordTree, t.prefixWords = Text.fields input →
        t'.postfixWords ≠ Text.fields input) ∧
      ((ofText input).valid = true → '(' ∉ input.toList ∧ ')' ∉ input.toList) := by
  have hbefore : ∀ t : WordTree, t.Readable → t.prefixWords = Text.fields input →
      Reading.ofText input = .ok ⟨.prefixed, some t.toExpr⟩ :=
    fun t ht hfields => Reading.ofText_of_prefixWords halphabet hspace ht hfields
  have hafter : ∀ t : WordTree, t.Readable → t.postfixWords = Text.fields input →
      Reading.ofText input = .ok ⟨.postfixed, some t.toExpr⟩ :=
    fun t ht hfields => Reading.ofText_of_postfixWords halphabet hspace ht hfields
  refine ⟨?_, ?_, ?_, ?_, ?_⟩
  · rw [valid_ofText_iff]
    constructor
    · rintro ⟨reading, hread⟩
      obtain ⟨t, ht, ⟨hfields, -⟩ | ⟨hfields, -⟩⟩ := Reading.exists_of_ofText_of_space hspace hread
      · exact .inl ⟨t, ht, hfields⟩
      · exact .inr ⟨t, ht, hfields⟩
    · rintro (⟨t, ht, hfields⟩ | ⟨t, ht, hfields⟩)
      · exact ⟨_, hbefore t ht hfields⟩
      · exact ⟨_, hafter t ht hfields⟩
  · intro t ht hfields
    rw [ofText_of_reading (hbefore t ht hfields)]
    exact ⟨rfl, rfl⟩
  · intro t ht hfields
    rw [ofText_of_reading (hafter t ht hfields)]
    exact ⟨rfl, rfl⟩
  · intro t t' hfields hfields'
    have htwo := Text.two_le_length_fields hspace Text.isBlank_space
    rw [← hfields] at htwo
    exact WordTree.prefixWords_ne_postfixWords htwo (hfields.trans hfields'.symm)
  · intro hvalid
    obtain ⟨reading, hread⟩ := valid_ofText_iff.1 hvalid
    obtain ⟨t, ht, ⟨hfields, -⟩ | ⟨hfields, -⟩⟩ := Reading.exists_of_ofText_of_space hspace hread
    · exact not_paren_mem_of_fields ht fun word hword => hfields ▸ hword
    · exact not_paren_mem_of_fields ht fun word hword =>
        WordTree.mem_postfixWords.1 (hfields ▸ hword)

/-- Operators last, with more spaces than one between two words and around them. -/
theorem ofText_of_space_of_postfix :
    let input := " 007 2147483647  3 % ^ "
    let t : WordTree := .node .pow (.operand "007" (by decide))
      (.node .mod (.operand "2147483647" (by decide)) (.operand "3" (by decide)))
    ((∀ c ∈ input.toList, Lexeme.inAlphabet c = true) ∧ ' ' ∈ (Text.trim input).toList) ∧
      (t.Readable ∧ t.postfixWords = Text.fields input ∧ (ofText input).valid = true ∧
        (ofText input).written = some .postfixed ∧ (ofText input).root = some t.toExpr) := by
  intro input t
  have halphabet : ∀ c ∈ input.toList, Lexeme.inAlphabet c = true :=
    List.all_eq_true.1 (by decide)
  have hspace : ' ' ∈ (Text.trim input).toList := by decide
  have hreadable : t.Readable := by decide
  have hfields : t.postfixWords = Text.fields input := by decide
  obtain ⟨hvalid, -, hafter, -, -⟩ := ofText_of_space halphabet hspace
  exact ⟨⟨halphabet, hspace⟩, hreadable, hfields, hvalid.2 (.inr ⟨t, hreadable, hfields⟩),
    hafter t hreadable hfields⟩

end ArithTree.Worksheet
