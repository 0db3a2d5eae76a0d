import ArithTree.Proofs.Fields
import ArithTree.Proofs.InfixGrammar
import ArithTree.Proofs.PostfixWords
import ArithTree.Proofs.PrefixWords
import ArithTree.Reading

/-! How whole texts are read. The guess at the notation looks at the first and the last field only,
and each later stage checks a part of the rest. Main statements: a text with a space inside is read
exactly when its fields are the words of a readable tree in one of the two orders, and the text of a
phrase is read as the tree of the phrase. -/

namespace ArithTree

/-! ### Words as fields -/

theorem Lexeme.IsLexeme.isField {word : String} (h : IsLexeme word) : Text.IsField word := by
  refine ⟨?_, ?_⟩
  · rintro rfl
    exact h.toList_ne_nil rfl
  · intro c hc
    cases hblank : Text.isBlank c with
    | false => rfl
    | true => exact absurd (eq_space_of_isBlank (h.inAlphabet hc) hblank) (h.ne_space hc)

theorem Lexeme.isField_join {words : List String} (h : ∀ word ∈ words, IsLexeme word)
    (hne : words ≠ []) : Text.IsField (String.join words) := by
  refine ⟨?_, ?_⟩
  · obtain ⟨word, hword⟩ := List.exists_mem_of_ne_nil words hne
    obtain ⟨c, hc⟩ := List.exists_mem_of_ne_nil _ (h word hword).toList_ne_nil
    intro hempty
    have hmem := mem_join.2 ⟨word, hword, hc⟩
    simp [hempty] at hmem
  · intro c hc
    obtain ⟨word, hword, hc⟩ := mem_join.1 hc
    exact (h word hword).isField.2 c hc

namespace WordTree

theorem operand_or_symbol_of_mem_prefixWords {t : WordTree} {word : String}
    (h : word ∈ t.prefixWords) : word ∈ t.operands ∨ ∃ op : Operator, word = op.symbol := by
  induction t with
  | operand word hw => exact .inl h
  | node op left right ihl ihr =>
    simp only [prefixWords, List.mem_cons, List.mem_append] at h
    simp only [operands, List.mem_append]
    rcases h with rfl | h | h
    · exact .inr ⟨op, rfl⟩
    · exact (ihl h).imp_left .inl
    · exact (ihr h).imp_left .inr

theorem isLexeme_prefixWords (t : WordTree)
    (h : ∀ word ∈ t.operands, Numeral.isNumeral word = true) :
    ∀ word ∈ t.prefixWords, Lexeme.IsLexeme word := by
  intro word hword
  rcases operand_or_symbol_of_mem_prefixWords hword with hoperand | ⟨op, rfl⟩
  · exact .inl (h word hoperand)
  · exact .inr (.inr (.inr ⟨op, rfl⟩))

theorem mem_postfixWords {t : WordTree} {word : String} :
    word ∈ t.postfixWords ↔ word ∈ t.prefixWords := by
  induction t with
  | operand word hw => rfl
  | node op left right ihl ihr =>
    simp only [prefixWords, postfixWords, List.mem_cons, List.mem_append, List.not_mem_nil,
      or_false, ihl, ihr]
    exact or_comm

end WordTree

/-! ### Words joined by spaces -/

namespace Lexeme

theorem inAlphabet_intercalate {words : List String} (h : ∀ word ∈ words, IsLexeme word) :
    ∀ c ∈ (" ".intercalate words).toList, inAlphabet c = true := by
  induction words with
  | nil => simp
  | cons word words ih =>
    have hrest := ih fun w hw => h w (by simp [hw])
    intro c hc
    rcases words with _ | ⟨next, words⟩
    · rw [String.intercalate_singleton] at hc
      exact (h word (by simp)).inAlphabet hc
    · rw [String.intercalate_cons_cons, String.toList_append, String.toList_append,
        List.mem_append, List.mem_append] at hc
      rcases hc with (hc | hc) | hc
      · exact (h word (by simp)).inAlphabet hc
      · have hspace : c = ' ' := by simpa using hc
        rw [hspace]
        decide
      · exact hrest c hc

/-- The only blank that can stand between two fields of a text of the alphabet is the space. -/
theorem space_mem_trim {text : String} (halphabet : ∀ c ∈ text.toList, inAlphabet c = true)
    (htwo : 2 ≤ (Text.fields text).length) : ' ' ∈ (Text.trim text).toList := by
  by_contra hspace
  have hblank : ∀ c ∈ (Text.trim text).toList, Text.isBlank c = false := by
    intro c hc
    cases hc' : Text.isBlank c with
    | false => rfl
    | true =>
      rw [eq_space_of_isBlank (halphabet c (Text.mem_of_mem_trim hc)) hc'] at hc
      exact absurd hc hspace
  have hone := Text.length_fields_le_one hblank
  rw [Text.fields_trim] at hone
  omega

theorem space_mem_trim_intercalate {words : List String} (h : ∀ word ∈ words, IsLexeme word)
    (htwo : 2 ≤ words.length) : ' ' ∈ (Text.trim (" ".intercalate words)).toList := by
  have hfields : Text.fields (" ".intercalate words) = words :=
    Text.fields_intercalate fun word hword => (h word hword).isField
  exact space_mem_trim (inAlphabet_intercalate h) (by rwa [hfields])

end Lexeme

/-! ### Notations -/

namespace Notation

theorem detect_eq (text : String) :
    detect text =
      if text.toList.isEmpty then .ok blank
      else if (Text.fields text).head?.any isSymbol || Numeral.isNumeral text then .ok prefixed
      else if !text.toList.contains ' ' then .ok infixed
      else if (Text.fields text).getLast?.any isSymbol then .ok postfixed
      else .error .unknownNotation := rfl

theorem detect_of_space {text : String} (h : ' ' ∈ text.toList) :
    detect text =
      if (Text.fields text).head?.any isSymbol then .ok prefixed
      else if (Text.fields text).getLast?.any isSymbol then .ok postfixed
      else .error .unknownNotation := by
  have hempty : text.toList.isEmpty = false := by
    cases hcs : text.toList <;> simp_all
  have hnumeral : Numeral.isNumeral text = false := by
    cases hn : Numeral.isNumeral text with
    | false => rfl
    | true => exact absurd h (Lexeme.not_mem_of_isNumeral hn (by decide))
  simp [detect_eq, hempty, hnumeral, h]

theorem detect_of_isField {text : String} (h : Text.IsField text) :
    detect text = .ok (if isSymbol text || Numeral.isNumeral text then prefixed else infixed) := by
  have hempty : text.toList.isEmpty = false := by simpa using h.1
  have hspace : text.toList.contains ' ' = false := by
    rw [List.contains_eq_mem, decide_eq_false_iff_not]
    intro hmem
    simpa [Text.isBlank_space] using h.2 ' ' hmem
  rw [detect_eq, Text.fields_of_isField h, hempty, hspace]
  cases hfirst : isSymbol text || Numeral.isNumeral text <;> simp [hfirst]

theorem eq_empty_of_detect_eq_blank {text : String} (h : detect text = .ok blank) : text = "" := by
  rw [detect_eq] at h
  split at h
  · simpa using ‹text.toList.isEmpty = true›
  · split at h
    · simp at h
    · split at h
      · simp at h
      · split at h <;> simp at h

end Notation

namespace Reading

theorem ofText_eq_ok_iff {input : String} {written : Notation} {root : Option Expr} :
    ofText input = .ok ⟨written, root⟩ ↔
      (∀ c ∈ input.toList, Lexeme.inAlphabet c = true) ∧
      Notation.detect (Text.trim input) = .ok written ∧
      (written = .blank ∧ root = none ∨ written ≠ .blank ∧
        ∃ words e, written.prefixWords (Text.trim input) = .ok words ∧
          Prefix.read words = .ok e ∧ root = some e) := by
  unfold ofText
  rw [ReadError.bind_eq_ok_iff]
  constructor
  · rintro ⟨⟨⟩, halphabet, h⟩
    obtain ⟨found, hdetect, h⟩ := ReadError.bind_eq_ok_iff.1 h
    refine ⟨Lexeme.validate_eq_ok_iff.1 halphabet, ?_⟩
    split at h
    · next hblank =>
      obtain ⟨rfl, rfl⟩ := Reading.mk.inj (Except.ok.inj h)
      exact ⟨hdetect, .inl ⟨hblank, rfl⟩⟩
    · next hblank =>
      obtain ⟨words, hwords, h⟩ := ReadError.bind_eq_ok_iff.1 h
      obtain ⟨e, he, h⟩ := ReadError.bind_eq_ok_iff.1 h
      obtain ⟨rfl, rfl⟩ := Reading.mk.inj (Except.ok.inj h)
      exact ⟨hdetect, .inr ⟨hblank, words, e, hwords, he, rfl⟩⟩
  · rintro ⟨halphabet, hdetect, ⟨rfl, rfl⟩ | ⟨hblank, words, e, hwords, he, rfl⟩⟩
    · exact ⟨(), Lexeme.validate_eq_ok_iff.2 halphabet,
        ReadError.bind_eq_ok_iff.2 ⟨_, hdetect, if_pos rfl⟩⟩
    · refine ⟨(), Lexeme.validate_eq_ok_iff.2 halphabet,
        ReadError.bind_eq_ok_iff.2 ⟨_, hdetect, ?_⟩⟩
      rw [if_neg hblank, hwords, ReadError.ok_bind, he]
      rfl

/-- Whatever the notation, it is the words that decide. -/
theorem ofText_of_words {input : String} {written : Notation} {t : WordTree}
    (halphabet : ∀ c ∈ input.toList, Lexeme.inAlphabet c = true)
    (hdetect : Notation.detect (Text.trim input) = .ok written) (hblank : written ≠ .blank)
    (hwords : written.prefixWords (Text.trim input) = .ok t.prefixWords) (ht : t.Readable) :
    ofText input = .ok ⟨written, some t.toExpr⟩ :=
  ofText_eq_ok_iff.2 ⟨halphabet, hdetect, .inr ⟨hblank, t.prefixWords, t.toExpr, hwords,
    Prefix.read_eq_ok_iff.2 ⟨t, ht, rfl, rfl⟩, rfl⟩⟩

end Reading

/-! ### Texts with a space inside -/

namespace WordTree

theorem isSymbol_head?_prefixWords {t : WordTree} (h : 2 ≤ t.prefixWords.length) :
    t.prefixWords.head?.any Notation.isSymbol = true := by
  cases t with
  | operand word hw => simp [prefixWords] at h
  | node op left right => simp [prefixWords, Notation.isSymbol]

theorem isSymbol_head?_postfixWords (t : WordTree) :
    t.postfixWords.head?.any Notation.isSymbol = false := by
  obtain ⟨word, hhead, hw⟩ := t.head?_postfixWords
  simp [hhead, Notation.isSymbol, hw]

theorem isSymbol_getLast?_postfixWords {t : WordTree} (h : 2 ≤ t.postfixWords.length) :
    t.postfixWords.getLast?.any Notation.isSymbol = true := by
  cases t with
  | operand word hw => simp [postfixWords] at h
  | node op left right => simp [postfixWords, Notation.isSymbol]

end WordTree

namespace Reading

variable {input : String}

theorem ofText_of_prefixWords (halphabet : ∀ c ∈ input.toList, Lexeme.inAlphabet c = true)
    (hspace : ' ' ∈ (Text.trim input).toList) {t : WordTree} (ht : t.Readable)
    (hfields : t.prefixWords = Text.fields input) :
    ofText input = .ok ⟨.prefixed, some t.toExpr⟩ := by
  have htwo := Text.two_le_length_fields hspace Text.isBlank_space
  have hdetect : Notation.detect (Text.trim input) = .ok .prefixed := by
    rw [Notation.detect_of_space hspace, Text.fields_trim, ← hfields,
      if_pos (WordTree.isSymbol_head?_prefixWords (by rwa [hfields]))]
  have hwords : Notation.prefixed.prefixWords (Text.trim input) = .ok t.prefixWords := by
    rw [Notation.prefixWords, Text.fields_trim, hfields]
  exact ofText_of_words halphabet hdetect (by decide) hwords ht

theorem ofText_of_postfixWords (halphabet : ∀ c ∈ input.toList, Lexeme.inAlphabet c = true)
    (hspace : ' ' ∈ (Text.trim input).toList) {t : WordTree} (ht : t.Readable)
    (hfields : t.postfixWords = Text.fields input) :
    ofText input = .ok ⟨.postfixed, some t.toExpr⟩ := by
  have htwo := Text.two_le_length_fields hspace Text.isBlank_space
  have hdetect : Notation.detect (Text.trim input) = .ok .postfixed := by
    rw [Notation.detect_of_space hspace, Text.fields_trim, ← hfields,
      WordTree.isSymbol_head?_postfixWords,
      if_pos (WordTree.isSymbol_getLast?_postfixWords (by rwa [hfields]))]
    rfl
  have hwords : Notation.postfixed.prefixWords (Text.trim input) = .ok t.prefixWords := by
    rw [Notation.prefixWords, Text.fields_trim, ← hfields]
    exact Postfix.toPrefixWords_eq_ok_iff.2 ⟨t, rfl, rfl⟩
  exact ofText_of_words halphabet hdetect (by decide) hwords ht

/-- Reading the rearranged words gives the tree that they were rearranged from, because words
determine their tree. -/
theorem exists_of_ofText_of_space (hspace : ' ' ∈ (Text.trim input).toList) {reading : Reading}
    (h : ofText input = .ok reading) :
    ∃ t : WordTree, t.Readable ∧
      (t.prefixWords = Text.fields input ∧ reading = ⟨.prefixed, some t.toExpr⟩ ∨
        t.postfixWords = Text.fields input ∧ reading = ⟨.postfixed, some t.toExpr⟩) := by
  obtain ⟨written, root⟩ := reading
  obtain ⟨-, hdetect, ⟨rfl, -⟩ | ⟨-, words, e, hwords, he, rfl⟩⟩ := ofText_eq_ok_iff.1 h
  · have hempty := Notation.eq_empty_of_detect_eq_blank hdetect
    simp [hempty] at hspace
  obtain ⟨t, ht, rfl, rfl⟩ := Prefix.read_eq_ok_iff.1 he
  rw [Notation.detect_of_space hspace] at hdetect
  refine ⟨t, ht, ?_⟩
  split at hdetect
  · obtain rfl := Except.ok.inj hdetect
    rw [Notation.prefixWords, Text.fields_trim] at hwords
    exact .inl ⟨(Except.ok.inj hwords).symm, rfl⟩
  · split at hdetect
    · obtain rfl := Except.ok.inj hdetect
      rw [Notation.prefixWords, Text.fields_trim] at hwords
      obtain ⟨t', hafter, hbefore⟩ := Postfix.toPrefixWords_eq_ok_iff.1 hwords
      obtain rfl := WordTree.prefixWords_injective hbefore
      exact .inr ⟨hafter, rfl⟩
    · cases hdetect

theorem ofText_intercalate_prefixWords {t : WordTree} (ht : t.Readable)
    (htwo : 2 ≤ t.prefixWords.length) :
    ofText (" ".intercalate t.prefixWords) = .ok ⟨.prefixed, some t.toExpr⟩ := by
  have hlexemes := t.isLexeme_prefixWords fun word hword => (ht.literals word hword).isNumeral
  exact ofText_of_prefixWords (Lexeme.inAlphabet_intercalate hlexemes)
    (Lexeme.space_mem_trim_intercalate hlexemes htwo) ht
    (Text.fields_intercalate fun word hword => (hlexemes word hword).isField).symm

theorem ofText_intercalate_postfixWords {t : WordTree} (ht : t.Readable)
    (htwo : 2 ≤ t.postfixWords.length) :
    ofText (" ".intercalate t.postfixWords) = .ok ⟨.postfixed, some t.toExpr⟩ := by
  have hlexemes : ∀ word ∈ t.postfixWords, Lexeme.IsLexeme word := fun word hword =>
    t.isLexeme_prefixWords (fun word hword => (ht.literals word hword).isNumeral) word
      (WordTree.mem_postfixWords.1 hword)
  exact ofText_of_postfixWords (Lexeme.inAlphabet_intercalate hlexemes)
    (Lexeme.space_mem_trim_intercalate hlexemes htwo) ht
    (Text.fields_intercalate fun word hword => (hlexemes word hword).isField).symm

/-! ### Texts without a space -/

/-- A numeral stands for itself in every notation, and is taken for the first. -/
theorem ofText_of_isLiteral {word : String} (h : Numeral.IsLiteral word) :
    ofText word = .ok ⟨.prefixed, some (.literal (Int32.ofNat (Numeral.value word)))⟩ := by
  have hlexeme : Lexeme.IsLexeme word := .inl h.isNumeral
  have hdetect : Notation.detect word = .ok .prefixed := by
    rw [Notation.detect_of_isField hlexeme.isField, h.isNumeral, Bool.or_true]
    rfl
  have htrim : Text.trim word = word := Text.trim_of_forall_not_blank hlexeme.isField.2
  let t : WordTree := .operand word (Numeral.ofSymbol?_of_isNumeral h.isNumeral)
  have hwords : Notation.prefixed.prefixWords word = .ok t.prefixWords := by
    rw [Notation.prefixWords, Text.fields_of_isField hlexeme.isField]
    rfl
  exact ofText_of_words (fun c hc => hlexeme.inAlphabet hc) (by rwa [htrim]) (by decide)
    (by rwa [htrim]) (WordTree.readableIn_operand.2 h)

end Reading

namespace Infix

variable {level : Nat} (phrase : Phrase level)

theorem isField_text : Text.IsField phrase.text := by
  obtain ⟨word, hword, -⟩ := phrase.exists_isNumeral
  exact Lexeme.isField_join phrase.isLexeme (List.ne_nil_of_mem hword)

theorem isSymbol_text : Notation.isSymbol phrase.text = false := by
  cases hop : Operator.ofSymbol? phrase.text with
  | none => simp [Notation.isSymbol, hop]
  | some op =>
    -- the digits of a numeral are in the text, and no operator is written with them
    obtain ⟨word, hword, hnumeral⟩ := phrase.exists_isNumeral
    obtain ⟨c, hc⟩ := List.exists_mem_of_ne_nil _ (Lexeme.IsLexeme.toList_ne_nil (.inl hnumeral))
    have hmem : c ∈ phrase.text.toList := Lexeme.mem_join.2 ⟨word, hword, hc⟩
    have hdigit := Lexeme.isDigit_of_isNumeral hnumeral hc
    rw [← Operator.ofSymbol?_eq_some_iff.1 hop, Operator.toList_symbol, List.mem_singleton] at hmem
    rw [hmem] at hdigit
    exact absurd hdigit (by cases op <;> decide)

/-- A phrase whose text is a numeral has no other word. -/
theorem prefixWords_tree_of_isNumeral (h : Numeral.isNumeral phrase.text = true) :
    phrase.tree.prefixWords = [phrase.text] := by
  have hjoin : Lexeme.words (String.join [phrase.text]) = .ok [phrase.text] :=
    Lexeme.words_join (by simpa using .inl h) (List.isChain_singleton _)
  rw [String.join_cons, String.join_nil, String.append_empty, words_text] at hjoin
  have hself : backwards [phrase.text] = [phrase.text] := by
    simp [backwards, facing_of_isNumeral h]
  have hscan : toPrefixWords [phrase.text] = .ok [phrase.text] := by
    rw [toPrefixWords, hself]
    exact @Yard.scan_of_reads level _ _ (Yard.reads_numeral h)
  have htree := toPrefixWords_phrase phrase
  rw [Except.ok.inj hjoin, hscan] at htree
  exact (Except.ok.inj htree).symm

theorem ofText_text (h : phrase.tree.Readable) :
    Reading.ofText phrase.text =
      .ok ⟨if Numeral.isNumeral phrase.text then .prefixed else .infixed,
        some phrase.tree.toExpr⟩ := by
  have hfield := isField_text phrase
  have hdetect := Notation.detect_of_isField hfield
  rw [isSymbol_text, Bool.false_or] at hdetect
  have htrim : Text.trim phrase.text = phrase.text := Text.trim_of_forall_not_blank hfield.2
  refine Reading.ofText_of_words ?_ (by rwa [htrim]) (by split <;> decide) ?_ h
  · intro c hc
    obtain ⟨word, hword, hc⟩ := Lexeme.mem_join.1 hc
    exact (phrase.isLexeme word hword).inAlphabet hc
  · rw [htrim]
    split
    · next hnumeral =>
      rw [prefixWords_tree_of_isNumeral phrase hnumeral, Notation.prefixWords,
        Text.fields_of_isField hfield]
    · rw [Notation.prefixWords, words_text, ReadError.ok_bind, toPrefixWords_phrase]

end Infix

end ArithTree
