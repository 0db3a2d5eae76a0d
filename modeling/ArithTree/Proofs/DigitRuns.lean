import ArithTree.Proofs.Inventory
import ArithTree.Proofs.WorksheetReading

/-! The inventory of a text. The characters between two separators belong together, and whatever a
way of cutting keeps of a text it keeps of every part between separators; so the digit runs and the
operator characters of a text are those of its lexemes, and of its fields. Main statement: a tree
that was read from a text has the digit runs of the text for its literals, in their order, and each
operator as often as the text has its character. -/

namespace ArithTree

namespace Text

/-- The longest runs of digits, as lists of characters. -/
def runs (cs : List Char) : List (List Char) :=
  (cs.splitOnP (!·.isDigit)).filter (!·.isEmpty)

/-- The longest runs of digits, in order. -/
def digitRuns (s : String) : List String := (runs s.toList).map String.ofList

/-! ### Separators -/

variable {p : Char → Bool} {β : Type}

/-- A list is free of separators, or it has a first one. -/
theorem separated_induction {motive : List Char → Prop} (p : Char → Bool)
    (free : ∀ cs, (∀ c ∈ cs, p c = false) → motive cs)
    (separated : ∀ cs c cs', (∀ d ∈ cs, p d = false) → p c = true → motive cs' →
      motive (cs ++ c :: cs')) (cs : List Char) : motive cs := by
  suffices h : ∀ before, (∀ c ∈ before, p c = false) → motive (before ++ cs) from
    h [] (by simp)
  induction cs with
  | nil =>
    intro before hbefore
    rw [List.append_nil]
    exact free before hbefore
  | cons c cs ih =>
    intro before hbefore
    cases hc : p c with
    | true => exact separated before c cs hbefore hc (ih [] (by simp))
    | false =>
      rw [← List.singleton_append, ← List.append_assoc]
      refine ih (before ++ [c]) fun d hd => ?_
      rcases List.mem_append.1 hd with hd | hd
      · exact hbefore d hd
      · rwa [List.mem_singleton.1 hd]

/-- What a function makes of a list, it makes of the parts before, at and after a separator. -/
def CutsAt (p : Char → Bool) (f : List Char → List β) : Prop :=
  ∀ cs c cs', p c = true → f (cs ++ c :: cs') = f cs ++ (f [c] ++ f cs')

theorem cutsAt_filter (p q : Char → Bool) : CutsAt p (List.filter q) := by
  intro cs c cs' _
  rw [← List.filter_append, ← List.filter_append, List.singleton_append]

/-- Parts between separators are left whole. -/
structure Cutter (p : Char → Bool) (cut : List Char → List (List Char)) : Prop where
  cutsAt : CutsAt p cut
  nil : cut [] = []
  whole : ∀ cs, cs ≠ [] → (∀ c ∈ cs, p c = false) → cut cs = [cs]

/-- What is made of every piece, put together, is what is made of the whole. -/
theorem Cutter.flatMap_eq {cut : List Char → List (List Char)} (hcut : Cutter p cut)
    {f : List Char → List β} (hf : CutsAt p f) (hnil : f [] = [])
    (hseparator : ∀ c, p c = true → (cut [c]).flatMap f = f [c]) (cs : List Char) :
    (cut cs).flatMap f = f cs := by
  have hfree : ∀ cs, (∀ c ∈ cs, p c = false) → (cut cs).flatMap f = f cs := by
    intro cs hcs
    by_cases hempty : cs = []
    · simp [hempty, hcut.nil, hnil]
    · simp [hcut.whole cs hempty hcs]
  induction cs using separated_induction p with
  | free cs hcs => exact hfree cs hcs
  | separated cs c cs' hcs hc ih =>
    rw [hcut.cutsAt cs c cs' hc, hf cs c cs' hc, List.flatMap_append, List.flatMap_append,
      hfree cs hcs, hseparator c hc, ih]

/-! ### Digit runs -/

theorem runs_append_cons {c : Char} (hc : c.isDigit = false) (cs cs' : List Char) :
    runs (cs ++ c :: cs') = runs cs ++ runs cs' := by
  simp only [runs]
  rw [List.splitOnP_append_cons _ _ (by simp [hc]), List.filter_append]

theorem runs_nil : runs [] = [] := by simp [runs]

theorem runs_singleton {c : Char} (hc : c.isDigit = false) : runs [c] = [] := by
  simpa [runs_nil] using runs_append_cons hc [] []

theorem runs_of_forall_isDigit {cs : List Char} (hne : cs ≠ []) (h : ∀ c ∈ cs, c.isDigit = true) :
    runs cs = [cs] := by
  rw [runs, List.splitOnP_eq_singleton (by simpa using h)]
  simp [hne]

theorem cutsAt_runs (h : ∀ c, p c = true → c.isDigit = false) : CutsAt p runs := by
  intro cs c cs' hc
  rw [runs_append_cons (h c hc), runs_singleton (h c hc), List.nil_append]

section Pieces

variable {cut : List Char → List (List Char)}

theorem Cutter.flatMap_digitRuns (hcut : Cutter p cut)
    (hdigit : ∀ c, p c = true → c.isDigit = false)
    (hseparator : ∀ c, p c = true → (cut [c]).flatMap runs = []) (s : String) :
    ((cut s.toList).map String.ofList).flatMap digitRuns = digitRuns s := by
  have hruns : (cut s.toList).flatMap runs = runs s.toList := by
    refine hcut.flatMap_eq (cutsAt_runs hdigit) runs_nil ?_ _
    intro c hc
    rw [hseparator c hc, runs_singleton (hdigit c hc)]
  rw [digitRuns, ← hruns, List.map_flatMap, List.flatMap_map]
  simp [digitRuns]

theorem Cutter.count_flatMap (hcut : Cutter p cut) {g : Char}
    (hseparator : ∀ c, p c = true →
      (cut [c]).flatMap (List.filter (· == g)) = [c].filter (· == g)) (s : String) :
    (((cut s.toList).map String.ofList).flatMap String.toList).count g = s.toList.count g := by
  have hkept := hcut.flatMap_eq (cutsAt_filter p (· == g)) List.filter_nil hseparator s.toList
  rw [List.count_eq_length_filter, List.count_eq_length_filter, ← hkept, List.flatMap_map,
    List.filter_flatMap]
  simp

end Pieces

/-! ### Fields -/

theorem pieces_singleton {c : Char} (hc : isBlank c = true) : pieces [c] = [] := by
  simpa [pieces] using pieces_append_blank_cons hc [] []

theorem cutter_pieces : Cutter isBlank pieces where
  cutsAt cs c cs' hc := by
    rw [pieces_append_blank_cons hc, pieces_singleton hc, List.nil_append]
  nil := by simp [pieces]
  whole cs hne hcs := by
    rw [pieces, List.splitOnP_eq_singleton hcs]
    simp [hne]

theorem isDigit_of_isBlank {c : Char} (h : isBlank c = true) : c.isDigit = false := by
  cases hc : c.isDigit with
  | false => rfl
  | true => simp [Lexeme.isBlank_of_isDigit hc] at h

theorem flatMap_digitRuns_fields (s : String) : (fields s).flatMap digitRuns = digitRuns s := by
  refine cutter_pieces.flatMap_digitRuns (fun c => isDigit_of_isBlank) ?_ s
  intro c hc
  rw [pieces_singleton hc, List.flatMap_nil]

theorem count_flatMap_fields {g : Char} (hg : isBlank g = false) (s : String) :
    ((fields s).flatMap String.toList).count g = s.toList.count g := by
  refine cutter_pieces.count_flatMap ?_ s
  intro c hc
  have hne : c ≠ g := by
    rintro rfl
    simp [hc] at hg
  simp [pieces_singleton hc, hne]

end Text

/-! ### Lexemes -/

namespace Lexeme

open Text

theorem cut_append_cons {c : Char} (hc : c.isDigit = false) (cs cs' : List Char) :
    cut (cs ++ c :: cs') = cut cs ++ (cut [c] ++ cut cs') := by
  have hbefore : (cs ++ c :: cs').splitBy joined = cs.splitBy joined ++ (c :: cs').splitBy joined :=
    List.splitBy_append_cons _ (by simp [joined, hc])
  have hafter : (c :: cs').splitBy joined = [c].splitBy joined ++ cs'.splitBy joined :=
    @List.splitBy_append _ joined [c] cs' (by simp [joined, hc])
  rw [cut, hbefore, hafter, List.filter_append, List.filter_append]
  rfl

theorem cut_singleton (c : Char) : cut [c] = if c = ' ' then [] else [[c]] := by
  have hself : [c].splitBy joined = [[c]] :=
    List.splitBy_of_isChain (List.cons_ne_nil c []) (List.isChain_singleton c)
  rw [cut, hself]
  by_cases hspace : c = ' ' <;> simp [hspace]

theorem isNumeral_ofList {cs : List Char} (hne : cs ≠ []) (h : ∀ c ∈ cs, c.isDigit = true) :
    Numeral.isNumeral (String.ofList cs) = true := by
  simpa [Numeral.isNumeral, hne] using h

theorem cut_of_forall_isDigit {cs : List Char} (hne : cs ≠ []) (h : ∀ c ∈ cs, c.isDigit = true) :
    cut cs = [cs] := by
  have hchain := IsLexeme.isChain_joined (.inl (isNumeral_ofList hne h))
  rw [String.toList_ofList] at hchain
  have hspace : cs ≠ [' '] := by
    rintro rfl
    exact absurd (h ' ' (by simp)) (by decide)
  simp [cut, List.splitBy_of_isChain hne hchain, hspace]

theorem cutter_cut : Cutter (!·.isDigit) cut where
  cutsAt cs c cs' hc := cut_append_cons (by simpa using hc) cs cs'
  nil := rfl
  whole cs hne hcs := cut_of_forall_isDigit hne (by simpa using hcs)

theorem isLexeme_singleton {c : Char} (h : inAlphabet c = true) (hdigit : c.isDigit = false)
    (hspace : c ≠ ' ') : IsLexeme (String.ofList [c]) := by
  simp only [inAlphabet, Bool.or_eq_true, beq_iff_eq, List.any_eq_true] at h
  rcases h with (((h | h) | rfl) | rfl) | ⟨op, -, rfl⟩
  · exact absurd h hspace
  · simp [hdigit] at h
  · exact .inr (.inl rfl)
  · exact .inr (.inr (.inl rfl))
  · exact .inr (.inr (.inr ⟨op, rfl⟩))

theorem isLexeme_of_mem_cut {cs : List Char} (h : ∀ c ∈ cs, inAlphabet c = true) :
    ∀ piece ∈ cut cs, IsLexeme (String.ofList piece) := by
  have hfree : ∀ cs : List Char, (∀ c ∈ cs, (!c.isDigit) = false) →
      ∀ piece ∈ cut cs, IsLexeme (String.ofList piece) := by
    intro cs hcs piece hpiece
    by_cases hempty : cs = []
    · simp [hempty, cutter_cut.nil] at hpiece
    · rw [cutter_cut.whole cs hempty hcs, List.mem_singleton] at hpiece
      rw [hpiece]
      exact .inl (isNumeral_ofList hempty (by simpa using hcs))
  induction cs using separated_induction (!·.isDigit) with
  | free cs hcs => exact hfree cs hcs
  | separated cs c cs' hcs hc ih =>
    intro piece hpiece
    rw [cutter_cut.cutsAt cs c cs' hc, List.mem_append, List.mem_append] at hpiece
    rcases hpiece with hpiece | hpiece | hpiece
    · exact hfree cs hcs piece hpiece
    · rw [cut_singleton] at hpiece
      split at hpiece
      · cases hpiece
      · rw [List.mem_singleton.1 hpiece]
        exact isLexeme_singleton (h c (by simp)) (by simpa using hc) ‹_›
    · exact ih (fun d hd => h d (by simp [hd])) piece hpiece

/-! ### The inventory of a text -/

/-- The numerals are the digit runs of the text, and every operator is there as often as its
character is in the text. -/
structure Spells (words : List String) (text : String) : Prop where
  numerals : words.filter Numeral.isNumeral = digitRuns text
  operators : ∀ op : Operator, words.count op.symbol = text.toList.count op.glyph

variable {text word : String} {ws ws' : List String}

theorem Spells.of_sameInventory (h : Spells ws text) (hsame : SameInventory ws' ws) :
    Spells ws' text :=
  ⟨hsame.numerals.trans h.numerals, fun op => (hsame.operators op).trans (h.operators op)⟩

theorem IsLexeme.spells (h : IsLexeme word) : Spells [word] word := by
  cases hnumeral : Numeral.isNumeral word with
  | true =>
    refine ⟨?_, fun op => ?_⟩
    · rw [digitRuns, runs_of_forall_isDigit h.toList_ne_nil
        fun c hc => isDigit_of_isNumeral hnumeral hc]
      simp [hnumeral]
    · have hword : word ≠ op.symbol := by
        rintro rfl
        simp [Numeral.isNumeral_symbol] at hnumeral
      rw [List.count_cons_of_ne hword, List.count_nil, eq_comm, List.count_eq_zero]
      exact not_mem_of_isNumeral hnumeral (by cases op <;> decide)
  | false =>
    obtain ⟨c, hc, hdigit, -⟩ := h.eq_singleton hnumeral
    refine ⟨?_, fun op => ?_⟩
    · rw [digitRuns, hc, runs_singleton hdigit]
      simp [hnumeral]
    · have hword : (word == op.symbol) = (c == op.glyph) := by
        rw [Bool.eq_iff_iff, beq_iff_eq, beq_iff_eq, ← String.toList_inj, hc,
          Operator.toList_symbol, List.cons.injEq, and_iff_left rfl]
      rw [hc, List.count_cons, List.count_cons, hword]
      rfl

theorem filter_isNumeral_eq_flatMap (h : ∀ word ∈ ws, IsLexeme word) :
    ws.filter Numeral.isNumeral = ws.flatMap digitRuns := by
  induction ws with
  | nil => rfl
  | cons word ws ih =>
    rw [List.flatMap_cons, ← (h word (by simp)).spells.numerals,
      ← ih fun w hw => h w (by simp [hw]), ← List.filter_append, List.singleton_append]

theorem count_symbol_eq_count_flatMap (h : ∀ word ∈ ws, IsLexeme word) (op : Operator) :
    ws.count op.symbol = (ws.flatMap String.toList).count op.glyph := by
  induction ws with
  | nil => rfl
  | cons word ws ih =>
    rw [List.flatMap_cons, List.count_append, ← (h word (by simp)).spells.operators,
      ← ih fun w hw => h w (by simp [hw]), ← List.count_append, List.singleton_append]

theorem isBlank_glyph (op : Operator) : isBlank op.glyph = false := by
  cases op <;> decide

theorem spells_fields (h : ∀ word ∈ fields text, IsLexeme word) : Spells (fields text) text :=
  ⟨by rw [filter_isNumeral_eq_flatMap h, flatMap_digitRuns_fields],
    fun op => by rw [count_symbol_eq_count_flatMap h, count_flatMap_fields (isBlank_glyph op)]⟩

theorem words_eq_ok (h : words text = .ok ws) :
    (∀ c ∈ text.toList, inAlphabet c = true) ∧ ws = (cut text.toList).map String.ofList := by
  unfold words at h
  split at h
  · cases h
  · next hnone => exact ⟨by simpa using hnone, (Except.ok.inj h).symm⟩

theorem isLexeme_of_words (h : words text = .ok ws) : ∀ word ∈ ws, IsLexeme word := by
  obtain ⟨halphabet, rfl⟩ := words_eq_ok h
  intro word hword
  obtain ⟨piece, hpiece, rfl⟩ := List.mem_map.1 hword
  exact isLexeme_of_mem_cut halphabet piece hpiece

theorem spells_words (h : words text = .ok ws) : Spells ws text := by
  have hlexemes := isLexeme_of_words h
  obtain ⟨-, rfl⟩ := words_eq_ok h
  refine ⟨?_, fun op => ?_⟩
  · rw [filter_isNumeral_eq_flatMap hlexemes]
    refine cutter_cut.flatMap_digitRuns (by simp) ?_ text
    intro c hc
    have hdigit : c.isDigit = false := by simpa using hc
    rw [cut_singleton]
    split <;> simp [runs_singleton hdigit]
  · rw [count_symbol_eq_count_flatMap hlexemes]
    refine cutter_cut.count_flatMap ?_ text
    intro c _
    have hne : ' ' ≠ op.glyph := by cases op <;> decide
    rw [cut_singleton]
    split
    · next hspace => simp [hspace, hne]
    · simp

/-- Blanks at the ends of a text are in no digit run, and no operator. -/
theorem Spells.of_trim (h : Spells ws (trim text)) : Spells ws text := by
  refine ⟨?_, fun op => ?_⟩
  · rw [h.numerals, ← flatMap_digitRuns_fields, fields_trim, flatMap_digitRuns_fields]
  · rw [h.operators, ← count_flatMap_fields (isBlank_glyph op), fields_trim,
      count_flatMap_fields (isBlank_glyph op)]

end Lexeme

/-! ### Readings -/

namespace Reading

theorem exists_spells {input : String} {written : Notation} {e : Expr}
    (h : ofText input = .ok ⟨written, some e⟩) :
    ∃ t : WordTree, t.Readable ∧ t.toExpr = e ∧ Lexeme.Spells t.prefixWords input := by
  obtain ⟨-, -, ⟨-, hroot⟩ | ⟨hblank, words, e', hwords, hread, hroot⟩⟩ := ofText_eq_ok_iff.1 h
  · cases hroot
  obtain rfl := Option.some.inj hroot
  obtain ⟨t, ht, rfl, rfl⟩ := Prefix.read_eq_ok_iff.1 hread
  have hlexemes := t.isLexeme_prefixWords fun word hword => (ht.literals word hword).isNumeral
  refine ⟨t, ht, rfl, Lexeme.Spells.of_trim ?_⟩
  cases written with
  | blank => exact absurd rfl hblank
  | prefixed =>
    have hfields : Text.fields (Text.trim input) = t.prefixWords := Except.ok.inj hwords
    rw [← hfields] at hlexemes ⊢
    exact Lexeme.spells_fields hlexemes
  | infixed =>
    obtain ⟨words, hlexed, hmoved⟩ := ReadError.bind_eq_ok_iff.1 hwords
    exact (Lexeme.spells_words hlexed).of_sameInventory (Infix.sameInventory_toPrefixWords hmoved)
  | postfixed =>
    obtain ⟨t', hfields, hmoved⟩ := Postfix.toPrefixWords_eq_ok_iff.1 hwords
    obtain rfl := WordTree.prefixWords_injective hmoved
    have hpostfix : ∀ word ∈ t'.postfixWords, Lexeme.IsLexeme word :=
      fun word hword => hlexemes word (WordTree.mem_postfixWords.1 hword)
    have hspells : Lexeme.Spells t'.postfixWords (Text.trim input) := by
      rw [hfields] at hpostfix ⊢
      exact Lexeme.spells_fields hpostfix
    exact hspells.of_sameInventory t'.sameInventory_postfixWords.symm

end Reading

namespace Worksheet

/-- Whatever the notation, and whether or not the text is in the grammar of that notation. -/
theorem literals_and_operators_ofText {input : String} {e : Expr}
    (h : (ofText input).root = some e) :
    e.literals.map Int32.toInt =
        (Text.digitRuns input).map (fun run => (Numeral.value run : Int)) ∧
      ∀ op : Operator, e.operators.count op = input.toList.count op.glyph := by
  obtain ⟨written, hread⟩ := exists_reading_of_root h
  obtain ⟨t, ht, rfl, hspells⟩ := Reading.exists_spells hread
  have hnumerals : ∀ word ∈ t.operands, Numeral.isNumeral word = true :=
    fun word hword => (ht.literals word hword).isNumeral
  refine ⟨?_, fun op => ?_⟩
  · rw [← hspells.numerals, WordTree.filter_prefixWords hnumerals, WordTree.literals_toExpr,
      List.map_map]
    exact List.map_congr_left fun word hword => (ht.literals word hword).toInt_ofNat_value
  · rw [← WordTree.count_prefixWords, hspells.operators]

/-- A text outside the grammar: both its operators stand before their operands, and it is read as a
text with operators between them. -/
theorem literals_and_operators_of_leading_operators :
    (ofText "-007(*(1)2)").root =
        some (.node .sub (.literal 7) (.node .mul (.literal 1) (.literal 2))) ∧
      [(7 : Int), 1, 2] =
          (Text.digitRuns "-007(*(1)2)").map (fun run => (Numeral.value run : Int)) ∧
        ∀ op : Operator, (Expr.node .sub (.literal 7)
          (.node .mul (.literal 1) (.literal 2))).operators.count op =
            "-007(*(1)2)".toList.count op.glyph := by
  have hroot : (ofText "-007(*(1)2)").root =
      some (.node .sub (.literal 7) (.node .mul (.literal 1) (.literal 2))) := by decide
  exact ⟨hroot, literals_and_operators_ofText hroot⟩

end Worksheet

end ArithTree
