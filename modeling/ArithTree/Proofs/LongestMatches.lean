import ArithTree.Proofs.DigitRuns
import ArithTree.Proofs.Obligations

/-! Texts scanned lexeme by lexeme. A scan goes through a text from the front: it skips spaces, it
takes the longest lexeme that the text goes on with, and it stops at a character with which none can
begin. Main statement: a text is cut into the words of a scan that comes to its end, so that no
numeral is broken up or run together with its neighbour; a scan that stops has met the first
character outside the alphabet, and that character alone decides what is wrong with the text. -/

namespace ArithTree.Lexeme

variable {word : String} {ws : List String} {c : Char} {cs rest : List Char}

/-! ### The alphabet -/

/-- The characters that an expression may be written in. -/
def alphabet : List Char := "0123456789+-*/^%() ".toList

theorem inAlphabet_iff_mem : inAlphabet c = true ↔ c ∈ alphabet := by
  constructor
  · intro h
    simp only [inAlphabet, Bool.or_eq_true, beq_iff_eq, List.any_eq_true] at h
    rcases h with (((rfl | hdigit) | rfl) | rfl) | ⟨op, -, rfl⟩
    · decide
    · obtain ⟨d, hd, rfl, -⟩ := Numeral.exists_digitChar_of_isDigit hdigit
      have hall : ∀ d < 10, Nat.digitChar d ∈ alphabet := by decide
      exact hall d hd
    · decide
    · decide
    · cases op <;> decide
  · have hall : alphabet.all inAlphabet = true := by decide
    exact List.all_eq_true.1 hall c

/-- No lexeme begins with a character outside the alphabet. -/
theorem not_prefix_of_not_mem_alphabet (h : c ∉ alphabet) (after : List Char)
    (hword : IsLexeme word) : ¬word.toList <+: c :: after := by
  intro hprefix
  obtain ⟨first, others, hfirst⟩ := List.exists_cons_of_ne_nil hword.toList_ne_nil
  rw [hfirst, List.cons_prefix_cons] at hprefix
  refine h (inAlphabet_iff_mem.1 (hword.inAlphabet ?_))
  rw [hfirst, hprefix.1]
  exact List.mem_cons_self

/-! ### Longest matches -/

/-- Of the lexemes that the word and the rest begin with, none is longer than the word. -/
def IsLongest (word : String) (rest : List Char) : Prop :=
  ∀ longer, IsLexeme longer → longer.toList <+: word.toList ++ rest →
    longer.toList.length ≤ word.toList.length

theorem IsLongest.not_isDigit (h : IsLongest word rest) (hnumeral : Numeral.isNumeral word = true)
    (hc : rest.head? = some c) : c.isDigit = false := by
  cases hdigit : c.isDigit with
  | false => rfl
  | true =>
    have hdigits : ∀ d ∈ word.toList ++ [c], d.isDigit = true := by
      simpa [or_imp, forall_and, hdigit] using fun d hd => isDigit_of_isNumeral hnumeral hd
    have hlexeme : IsLexeme (String.ofList (word.toList ++ [c])) :=
      .inl (isNumeral_ofList (by simp) hdigits)
    obtain ⟨others, rfl⟩ := List.head?_eq_some_iff.1 hc
    have hlength := h _ hlexeme (by simp)
    rw [String.toList_ofList, List.length_append, List.length_singleton] at hlength
    omega

theorem IsLexeme.isLongest (h : IsLexeme word)
    (hrest : Numeral.isNumeral word = true → ∀ c, rest.head? = some c → c.isDigit = false) :
    IsLongest word rest := by
  intro longer hlonger hprefix
  by_contra hlt
  cases hnumeral : Numeral.isNumeral longer with
  | false =>
    obtain ⟨c, hc, -⟩ := hlonger.eq_singleton hnumeral
    have hpos := List.length_pos_of_ne_nil h.toList_ne_nil
    rw [hc, List.length_singleton] at hlt
    omega
  | true =>
    -- a longer numeral is the word with more digits after it, and so the rest begins with a digit
    obtain ⟨more, hmore⟩ : word.toList <+: longer.toList :=
      List.prefix_of_prefix_length_le (List.prefix_append _ _) hprefix (by omega)
    rw [← hmore, List.prefix_append_right_inj] at hprefix
    have hdigits : ∀ c ∈ word.toList ++ more, c.isDigit = true := fun c hc =>
      isDigit_of_isNumeral hnumeral (hmore ▸ hc)
    have hword : Numeral.isNumeral word = true := by
      simpa using isNumeral_ofList h.toList_ne_nil fun c hc => hdigits c (List.mem_append_left _ hc)
    cases more with
    | nil => simp [← hmore] at hlt
    | cons c others =>
      obtain ⟨after, rfl⟩ := hprefix
      have hdigit := hdigits c (by simp)
      simp [hrest hword c rfl] at hdigit

/-! ### Scans -/

/-- The words that a scan takes from the front of a text before it comes to the rest. -/
inductive Scans (rest : List Char) : List Char → List String → Prop where
  | done : Scans rest rest []
  | space {cs : List Char} {ws : List String} (after : Scans rest cs ws) :
    Scans rest (' ' :: cs) ws
  | word {word : String} {cs : List Char} {ws : List String} (lexeme : IsLexeme word)
    (longest : IsLongest word cs) (after : Scans rest cs ws) :
    Scans rest (word.toList ++ cs) (word :: ws)

section Taken

variable (hcs : ∀ c, cs.head? = some c → c.isDigit = false)

include hcs

/-- A run of digits is taken whole where no digit follows it. -/
theorem Scans.digits_append {digits : List Char} (h : Scans rest cs ws)
    (hdigits : ∀ c ∈ digits, c.isDigit = true) :
    Scans rest (digits ++ cs) ((cut digits).map String.ofList ++ ws) := by
  by_cases hempty : digits = []
  · rw [hempty]
    exact h
  · have hlexeme : IsLexeme (String.ofList digits) := .inl (isNumeral_ofList hempty hdigits)
    have hword := Scans.word hlexeme (hlexeme.isLongest fun _ => hcs) h
    rw [cut_of_forall_isDigit hempty hdigits]
    rwa [String.toList_ofList] at hword

theorem cut_digits_append {digits : List Char} (hempty : digits ≠ [])
    (hdigits : ∀ c ∈ digits, c.isDigit = true) : cut (digits ++ cs) = digits :: cut cs := by
  cases cs with
  | nil => rw [List.append_nil, cut_of_forall_isDigit hempty hdigits, cutter_cut.nil]
  | cons c cs =>
    have hc := hcs c rfl
    rw [cut_append_cons hc, cut_of_forall_isDigit hempty hdigits, ← List.nil_append (c :: cs),
      cut_append_cons hc]
    rfl

end Taken

theorem cut_cons (hdigit : c.isDigit = false) (cs : List Char) :
    cut (c :: cs) = cut [c] ++ cut cs := cut_append_cons hdigit [] cs

/-- A text of the alphabet is scanned into what it is cut into, up to its end or up to a rest that
does not go on with a digit. -/
theorem scans_cut (hcs : ∀ c ∈ cs, inAlphabet c = true)
    (hrest : ∀ c, rest.head? = some c → c.isDigit = false) :
    Scans rest (cs ++ rest) ((cut cs).map String.ofList) := by
  induction cs using Text.separated_induction (!·.isDigit) with
  | free digits hdigits =>
    have hend : Scans rest rest [] := .done
    have hscan := hend.digits_append hrest (by simpa using hdigits)
    rwa [List.append_nil] at hscan
  | separated digits c cs hdigits hc ih =>
    have hdigit : c.isDigit = false := by simpa using hc
    have hafter := ih fun d hd => hcs d (by simp [hd])
    have hone : Scans rest (c :: (cs ++ rest)) ((cut [c] ++ cut cs).map String.ofList) := by
      rw [cut_singleton]
      split
      · next hspace =>
        rw [hspace]
        exact .space hafter
      · next hspace =>
        have hlexeme := isLexeme_singleton (hcs c (by simp)) hdigit hspace
        have hword := Scans.word hlexeme (hlexeme.isLongest fun hnumeral => ?_) hafter
        · rwa [String.toList_ofList] at hword
        · simp [Numeral.isNumeral, hdigit] at hnumeral
    have hscan := hone.digits_append (by simpa using hdigit) (by simpa using hdigits)
    rwa [← List.map_append, ← cut_append_cons hdigit, ← List.cons_append, ← List.append_assoc]
      at hscan

theorem Scans.exists_before (h : Scans rest cs ws) :
    ∃ before, cs = before ++ rest ∧ ∀ c ∈ before, inAlphabet c = true := by
  induction h with
  | done => exact ⟨[], rfl, by simp⟩
  | space after ih =>
    obtain ⟨before, rfl, hbefore⟩ := ih
    exact ⟨' ' :: before, rfl, List.forall_mem_cons.2 ⟨by decide, hbefore⟩⟩
  | @word word _ _ lexeme longest after ih =>
    obtain ⟨before, rfl, hbefore⟩ := ih
    exact ⟨word.toList ++ before, (List.append_assoc _ _ _).symm,
      List.forall_mem_append.2 ⟨fun c hc => lexeme.inAlphabet hc, hbefore⟩⟩

/-- A scan that comes to the end of a text has cut it. -/
theorem Scans.map_cut (h : Scans [] cs ws) : (cut cs).map String.ofList = ws := by
  induction h with
  | done => rfl
  | @space cs ws after ih => rw [cut_cons (by decide), cut_singleton, if_pos rfl, ← ih]; rfl
  | @word word cs ws lexeme longest after ih =>
    cases hnumeral : Numeral.isNumeral word with
    | true =>
      rw [cut_digits_append (fun c => longest.not_isDigit hnumeral) lexeme.toList_ne_nil
        fun c => isDigit_of_isNumeral hnumeral, List.map_cons, ih, String.ofList_toList]
    | false =>
      obtain ⟨c, hc, hdigit, -, hspace⟩ := lexeme.eq_singleton hnumeral
      rw [hc, List.singleton_append, cut_cons hdigit, cut_singleton, if_neg hspace,
        List.singleton_append, List.map_cons, ih, ← hc, String.ofList_toList]

/-! ### Words of a text -/

theorem words_eq_ok_iff_scans {text : String} :
    words text = .ok ws ↔ Scans [] text.toList ws := by
  constructor
  · intro h
    obtain ⟨halphabet, rfl⟩ := words_eq_ok h
    simpa using @scans_cut text.toList [] halphabet (by simp)
  · intro h
    obtain ⟨before, hbefore, halphabet⟩ := h.exists_before
    rw [List.append_nil] at hbefore
    rw [← hbefore] at halphabet
    have hnone : text.toList.find? (!inAlphabet ·) = none := by simpa using halphabet
    rw [words, hnone]
    exact congrArg Except.ok h.map_cut

theorem words_eq_error {text : String} {before after : List Char}
    (htext : text.toList = before ++ c :: after) (hbefore : ∀ d ∈ before, inAlphabet d = true)
    (hc : inAlphabet c = false) : words text = .error (.invalidCharacter c) := by
  have hfound : text.toList.find? (!inAlphabet ·) = some c := by
    rw [List.find?_eq_some_iff_append, hc]
    exact ⟨rfl, before, after, htext, by simpa using hbefore⟩
  rw [words, hfound]

theorem readingOfText_of_words_eq_error {text : String} {cause : ReadError}
    (h : words text = .error cause) : Reading.ofText text = .error cause := by
  rw [Reading.ofText, validate, h]
  rfl

/-! ### What a scan keeps -/

theorem Scans.filter_ne_space (h : Scans [] cs ws) :
    cs.filter (· != ' ') = (String.join ws).toList := by
  rw [String.toList_join]
  induction h with
  | done => rfl
  | space after ih => exact ih
  | word lexeme longest after ih =>
    rw [List.filter_append, List.flatMap_cons, ih, List.filter_eq_self.2]
    intro c hc
    simpa using lexeme.ne_space hc

/-- Between two numerals that follow one another the text has a space. -/
theorem Scans.exists_space {before after : List String} {word word' : String}
    (h : Scans [] cs (before ++ word :: word' :: after)) (hword : Numeral.isNumeral word = true)
    (hword' : Numeral.isNumeral word' = true) :
    ∃ us vs, cs = us ++ ' ' :: vs ∧
      us.filter (· != ' ') = (String.join (before ++ [word])).toList ∧
      vs.filter (· != ' ') = (String.join (word' :: after)).toList := by
  generalize hws : before ++ word :: word' :: after = ws at h
  induction h generalizing before with
  | done => simp at hws
  | space scan ih =>
    obtain ⟨us, vs, rfl, hus, hvs⟩ := ih hws
    exact ⟨' ' :: us, vs, rfl, hus, hvs⟩
  | @word first cs ws lexeme longest scan ih =>
    have hfirst : first.toList.filter (· != ' ') = first.toList := by
      rw [List.filter_eq_self]
      intro c hc
      simpa using lexeme.ne_space hc
    cases before with
    | nil =>
      obtain ⟨rfl, rfl⟩ := List.cons.inj hws
      -- the second numeral cannot follow at once, or the first one would not be the longest
      cases scan with
      | @space vs _ after =>
        exact ⟨word.toList, vs, rfl, by simpa using hfirst, after.filter_ne_space⟩
      | word lexeme' longest' after =>
        obtain ⟨c, others, hc⟩ := List.exists_cons_of_ne_nil lexeme'.toList_ne_nil
        have hdigit := longest.not_isDigit hword (c := c) (by simp [hc])
        simp [isDigit_of_isNumeral hword' (by rw [hc]; exact List.mem_cons_self)] at hdigit
    | cons other before =>
      obtain ⟨rfl, hrest⟩ := List.cons.inj hws
      obtain ⟨us, vs, rfl, hus, hvs⟩ := ih hrest
      refine ⟨other.toList ++ us, vs, (List.append_assoc _ _ _).symm, ?_, hvs⟩
      rw [List.filter_append, hfirst, hus]
      simp

theorem scans_intercalate (h : ∀ word ∈ ws, IsLexeme word) :
    Scans [] (" ".intercalate ws).toList ws := by
  induction ws with
  | nil => exact .done
  | cons word ws ih =>
    obtain ⟨hword, hws⟩ := List.forall_mem_cons.1 h
    cases ws with
    | nil =>
      have hscan : Scans [] (word.toList ++ []) [word] :=
        .word hword (hword.isLongest (by simp)) .done
      rwa [List.append_nil] at hscan
    | cons next ws =>
      have hrest : ∀ c, (' ' :: (" ".intercalate (next :: ws)).toList).head? = some c →
          c.isDigit = false := by
        intro c hc
        rw [← Option.some.inj hc]
        decide
      have hscan := Scans.word hword (hword.isLongest fun _ => hrest) (.space (ih hws))
      simpa [String.intercalate_cons_cons] using hscan

/-! ### Divisions -/

/-- What the words of a text are to the text. -/
structure Division (text : String) (ws : List String) : Prop where
  scans : Scans [] text.toList ws
  lexemes : ∀ word ∈ ws, IsLexeme word
  /-- Nothing but the spaces is left out. -/
  content : (String.join ws).toList = text.toList.filter (· != ' ')
  /-- Two numerals follow one another only over a space. -/
  spaces : ∀ before word word' after, ws = before ++ word :: word' :: after →
    Numeral.isNumeral word = true → Numeral.isNumeral word' = true →
    ∃ us vs, text.toList = us ++ ' ' :: vs ∧
      us.filter (· != ' ') = (String.join (before ++ [word])).toList ∧
      vs.filter (· != ' ') = (String.join (word' :: after)).toList

theorem division_of_words {text : String} (h : words text = .ok ws) : Division text ws := by
  have hscans := words_eq_ok_iff_scans.1 h
  refine ⟨hscans, isLexeme_of_words h, hscans.filter_ne_space.symm, ?_⟩
  rintro before word word' after rfl hword hword'
  exact hscans.exists_space hword hword'

/-- A text of the alphabet is divided into words by a scan from its front to its end. In any other
text the scan stops at the first character outside the alphabet, and what is wrong with the text is
that character, whatever else there is. And words that are written with spaces between them are
found again. -/
theorem words_or_first_stranger :
    (∀ text,
      ((∃ ws, words text = .ok ws) ↔ ∀ c ∈ text.toList, c ∈ alphabet) ∧
        (∀ ws, words text = .ok ws → Division text ws) ∧
        ∀ before c after, text.toList = before ++ c :: after → (∀ d ∈ before, d ∈ alphabet) →
          c ∉ alphabet →
          words text = .error (.invalidCharacter c) ∧
            Worksheet.ofText text = { valid := false, error := some (.invalidCharacter c) } ∧
            (∃ ws, Scans (c :: after) text.toList ws) ∧
            ∀ word, IsLexeme word → ¬word.toList <+: c :: after) ∧
      ∀ ws, (∀ word ∈ ws, IsLexeme word) → words (" ".intercalate ws) = .ok ws := by
  refine ⟨fun text => ⟨⟨?_, fun h => ?_⟩, fun ws => division_of_words, ?_⟩, fun ws h => ?_⟩
  · rintro ⟨ws, h⟩ c hc
    exact inAlphabet_iff_mem.1 ((words_eq_ok h).1 c hc)
  · have halphabet : ∀ c ∈ text.toList, inAlphabet c = true := fun c hc =>
      inAlphabet_iff_mem.2 (h c hc)
    have hscans := @scans_cut text.toList [] halphabet (by simp)
    exact ⟨_, words_eq_ok_iff_scans.2 (by simpa using hscans)⟩
  · intro before c after htext hbefore hc
    have halphabet : ∀ d ∈ before, inAlphabet d = true := fun d hd =>
      inAlphabet_iff_mem.2 (hbefore d hd)
    have hstranger : inAlphabet c = false := by rwa [← Bool.not_eq_true, inAlphabet_iff_mem]
    have hdigit : c.isDigit = false := by
      rw [← Bool.not_eq_true]
      exact fun hdigit => hc (inAlphabet_iff_mem.1 (inAlphabet_of_isDigit hdigit))
    have herror := words_eq_error htext halphabet hstranger
    refine ⟨herror, Worksheet.ofText_of_error (readingOfText_of_words_eq_error herror), ?_,
      fun word => not_prefix_of_not_mem_alphabet hc after⟩
    rw [htext]
    exact ⟨_, scans_cut halphabet (by simpa using hdigit)⟩
  · exact words_eq_ok_iff_scans.2 (scans_intercalate h)

/-- A text with two numerals side by side, one with a letter before a tab, and a list of words. -/
theorem words_or_first_stranger_of_neighbours :
    (words " 12 3-(40" = .ok ["12", "3", "-", "(", "40"] ∧
      Division " 12 3-(40" ["12", "3", "-", "(", "40"]) ∧
    ("1 2+\u00e9)(\t".toList = "1 2+".toList ++ '\u00e9' :: ")(\t".toList ∧
      (∀ d ∈ "1 2+".toList, d ∈ alphabet) ∧ '\u00e9' ∉ alphabet ∧
      words "1 2+\u00e9)(\t" = .error (.invalidCharacter '\u00e9') ∧
      Worksheet.ofText "1 2+\u00e9)(\t" =
        { valid := false, error := some (.invalidCharacter '\u00e9') }) ∧
    (∀ word ∈ ["12", "3", "-", "(", "40"], IsLexeme word) ∧
      words (" ".intercalate ["12", "3", "-", "(", "40"]) = .ok ["12", "3", "-", "(", "40"] := by
  have hwords : words " 12 3-(40" = .ok ["12", "3", "-", "(", "40"] := by rfl
  have htext : "1 2+\u00e9)(\t".toList = "1 2+".toList ++ '\u00e9' :: ")(\t".toList := by decide
  have hbefore : ∀ d ∈ "1 2+".toList, d ∈ alphabet := by
    simp only [← inAlphabet_iff_mem, ← List.all_eq_true]
    decide
  have hstranger : '\u00e9' ∉ alphabet := by decide
  have hlexemes : ∀ word ∈ ["12", "3", "-", "(", "40"], IsLexeme word := by decide
  obtain ⟨herror, hsheet, -⟩ :=
    (words_or_first_stranger.1 _).2.2 _ _ _ htext hbefore hstranger
  exact ⟨⟨hwords, (words_or_first_stranger.1 _).2.1 _ hwords⟩,
    ⟨htext, hbefore, hstranger, herror, hsheet⟩,
    hlexemes, words_or_first_stranger.2 _ hlexemes⟩

end ArithTree.Lexeme
