import Mathlib.Data.List.SplitBy
import ArithTree.Lexeme
import ArithTree.Numeral
import ArithTree.Text.Blank

/-! What a text is cut into. A lexeme is a numeral, an operator or a parenthesis, and two lexemes
stand apart without a space between them unless both are numerals. Proved: the lexemes of words that
stand apart, written one after the other, are these words, and the space is the only blank of the
alphabet. -/

namespace ArithTree.Lexeme

/-! ### The alphabet -/

theorem inAlphabet_of_isDigit {c : Char} (h : c.isDigit = true) : inAlphabet c = true := by
  simp [inAlphabet, h]

theorem isBlank_of_isDigit {c : Char} (h : c.isDigit = true) : Text.isBlank c = false := by
  have hrange : 48 ≤ c.toNat ∧ c.toNat ≤ 57 := Char.isDigit_iff_toNat.1 h
  simp only [Text.isBlank, Text.blankRanges, List.any_cons, List.any_nil, Bool.or_false,
    Bool.or_eq_false_iff, Bool.and_eq_false_iff, decide_eq_false_iff_not]
  omega

theorem eq_space_of_isBlank {c : Char} (h : inAlphabet c = true) (hblank : Text.isBlank c = true) :
    c = ' ' := by
  simp only [inAlphabet, Bool.or_eq_true, beq_iff_eq, List.any_eq_true] at h
  rcases h with (((rfl | h) | rfl) | rfl) | ⟨op, -, rfl⟩
  · rfl
  · simp [isBlank_of_isDigit h] at hblank
  · exact absurd hblank (by decide)
  · exact absurd hblank (by decide)
  · exact absurd hblank (by cases op <;> decide)

/-! ### Words that stand apart -/

/-- A numeral, an operator or a parenthesis. -/
def IsLexeme (word : String) : Prop :=
  Numeral.isNumeral word = true ∨ word = "(" ∨ word = ")" ∨ ∃ op : Operator, word = op.symbol

instance (word : String) : Decidable (IsLexeme word) :=
  decidable_of_iff (Numeral.isNumeral word = true ∨ word = "(" ∨ word = ")" ∨
      (Operator.ofSymbol? word).isSome = true) <| by
    simp only [IsLexeme, Option.isSome_iff_exists, Operator.ofSymbol?_eq_some_iff,
      @eq_comm _ word]

/-- Two words that are not both numerals. -/
def Apart (word word' : String) : Prop :=
  Numeral.isNumeral word = false ∨ Numeral.isNumeral word' = false

theorem isDigit_of_isNumeral {word : String} (h : Numeral.isNumeral word = true) {c : Char}
    (hc : c ∈ word.toList) : c.isDigit = true := by
  simp only [Numeral.isNumeral, Bool.and_eq_true, List.all_eq_true] at h
  exact h.2 c hc

theorem not_mem_of_isNumeral {word : String} (h : Numeral.isNumeral word = true) {c : Char}
    (hc : c.isDigit = false) : c ∉ word.toList := by
  intro hmem
  simp [isDigit_of_isNumeral h hmem] at hc

/-- A lexeme that is no numeral is one character, and no digit. -/
theorem IsLexeme.eq_singleton {word : String} (h : IsLexeme word)
    (hnumeral : Numeral.isNumeral word = false) :
    ∃ c, word.toList = [c] ∧ c.isDigit = false ∧ inAlphabet c = true ∧ c ≠ ' ' := by
  rcases h with h | rfl | rfl | ⟨op, rfl⟩
  · simp [h] at hnumeral
  · exact ⟨'(', rfl, by decide⟩
  · exact ⟨')', rfl, by decide⟩
  · exact ⟨op.glyph, op.toList_symbol, by cases op <;> decide⟩

theorem IsLexeme.toList_ne_nil {word : String} (h : IsLexeme word) : word.toList ≠ [] := by
  cases hnumeral : Numeral.isNumeral word with
  | true =>
    intro hnil
    simp [Numeral.isNumeral, hnil] at hnumeral
  | false =>
    obtain ⟨c, hc, -⟩ := h.eq_singleton hnumeral
    simp [hc]

theorem IsLexeme.inAlphabet {word : String} (h : IsLexeme word) {c : Char} (hc : c ∈ word.toList) :
    inAlphabet c = true := by
  cases hnumeral : Numeral.isNumeral word with
  | true => exact inAlphabet_of_isDigit (isDigit_of_isNumeral hnumeral hc)
  | false =>
    obtain ⟨d, hd, -, halphabet, -⟩ := h.eq_singleton hnumeral
    rw [hd, List.mem_singleton] at hc
    rwa [hc]

theorem IsLexeme.ne_space {word : String} (h : IsLexeme word) {c : Char} (hc : c ∈ word.toList) :
    c ≠ ' ' := by
  cases hnumeral : Numeral.isNumeral word with
  | true =>
    rintro rfl
    exact not_mem_of_isNumeral hnumeral (by decide) hc
  | false =>
    obtain ⟨d, hd, -, -, hspace⟩ := h.eq_singleton hnumeral
    rw [hd, List.mem_singleton] at hc
    rwa [hc]

theorem IsLexeme.isChain_joined {word : String} (h : IsLexeme word) :
    word.toList.IsChain fun a b => joined a b = true := by
  cases hnumeral : Numeral.isNumeral word with
  | true =>
    apply List.Pairwise.isChain
    apply List.pairwise_of_forall_mem_list
    intro a ha b hb
    simp [joined, isDigit_of_isNumeral hnumeral ha, isDigit_of_isNumeral hnumeral hb]
  | false =>
    obtain ⟨c, hc, -⟩ := h.eq_singleton hnumeral
    rw [hc]
    exact List.isChain_singleton c

/-- The last character of one lexeme and the first of the next one are not in one lexeme. -/
theorem not_joined_of_apart {word word' : String} (h : IsLexeme word) (h' : IsLexeme word')
    (hapart : Apart word word') :
    joined (word.toList.getLast h.toList_ne_nil) (word'.toList.head h'.toList_ne_nil) = false := by
  rcases hapart with hnumeral | hnumeral
  · obtain ⟨c, hc, hdigit, -⟩ := h.eq_singleton hnumeral
    simp [joined, hc, hdigit]
  · obtain ⟨c, hc, hdigit, -⟩ := h'.eq_singleton hnumeral
    simp [joined, hc, hdigit]

theorem splitBy_flatten_words {ws : List String} (h : ∀ word ∈ ws, IsLexeme word)
    (hapart : ws.IsChain Apart) :
    (ws.flatMap String.toList).splitBy joined = ws.map String.toList := by
  rw [List.flatMap_def]
  apply List.splitBy_flatten
  · rintro hnil
    obtain ⟨word, hword, hempty⟩ := List.mem_map.1 hnil
    exact (h word hword).toList_ne_nil hempty
  · rintro _ hmem
    obtain ⟨word, hword, rfl⟩ := List.mem_map.1 hmem
    exact (h word hword).isChain_joined
  · rw [List.isChain_map]
    apply hapart.imp_of_mem_imp
    intro word word' hword hword' hpair
    exact ⟨_, _, not_joined_of_apart (h word hword) (h word' hword') hpair⟩

theorem mem_join {ws : List String} {c : Char} :
    c ∈ (String.join ws).toList ↔ ∃ word ∈ ws, c ∈ word.toList := by
  rw [String.toList_join, List.mem_flatMap]

theorem words_join {ws : List String} (h : ∀ word ∈ ws, IsLexeme word)
    (hapart : ws.IsChain Apart) : words (String.join ws) = .ok ws := by
  have hnone : (String.join ws).toList.find? (!inAlphabet ·) = none := by
    rw [List.find?_eq_none]
    intro c hc
    obtain ⟨word, hword, hc⟩ := mem_join.1 hc
    simp [(h word hword).inAlphabet hc]
  have hkept : (ws.map String.toList).filter (· != [' ']) = ws.map String.toList := by
    rw [List.filter_eq_self]
    intro cs hcs
    obtain ⟨word, hword, rfl⟩ := List.mem_map.1 hcs
    rw [bne_iff_ne]
    intro hspace
    exact (h word hword).ne_space (by rw [hspace]; exact List.mem_singleton.2 rfl) rfl
  unfold words
  rw [hnone]
  simp only [cut, String.toList_join, splitBy_flatten_words h hapart, hkept]
  simp [Function.comp_def]

/-- A word between two lists of words that stand apart, itself no numeral, keeps them apart. -/
theorem isChain_apart_append_cons {ws ws' : List String} {word : String} (h : ws.IsChain Apart)
    (h' : ws'.IsChain Apart) (hword : Numeral.isNumeral word = false) :
    (ws ++ word :: ws').IsChain Apart := by
  rw [List.isChain_append]
  refine ⟨h, ?_, ?_⟩
  · rw [List.isChain_cons]
    exact ⟨fun _ _ => .inl hword, h'⟩
  · intro _ _ next hnext
    rw [List.head?_cons, Option.mem_some_iff] at hnext
    subst hnext
    exact .inr hword

end ArithTree.Lexeme
