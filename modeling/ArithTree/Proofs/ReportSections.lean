import ArithTree.Proofs.DrawnRoot
import ArithTree.Proofs.EvaluationReports
import ArithTree.Report

/-! The sections of a report. The lines of the value are one line with the value or the diagnostics
of the evaluation, never both and never neither, and no line is empty. Main statement: the value is
there exactly when the text was read, nothing was too big and no zero divisor was met; the
instructions then end with it and the drawing shows it beside the root, and otherwise the lines and
the instructions say what is wrong. -/

namespace ArithTree

/-! ### Texts of expressions -/

/-- The three texts are made of characters that an expression may be written in. -/
theorem Expr.inAlphabet_texts {e : Expr} (hliterals : ∀ v ∈ e.literals, 0 ≤ v.toInt)
    (hnesting : e.nesting ≤ maxNesting) :
    (∀ c ∈ e.toPrefix.toList, Lexeme.inAlphabet c = true) ∧
      (∀ c ∈ e.toPostfix.toList, Lexeme.inAlphabet c = true) ∧
      ∀ c ∈ e.toInfix.toList, Lexeme.inAlphabet c = true := by
  have hreadable := Expr.readable_wordTree hliterals hnesting
  have hlexemes := e.wordTree.isLexeme_prefixWords fun word hword =>
    (hreadable.literals word hword).isNumeral
  refine ⟨?_, ?_, ?_⟩
  · rw [toPrefix, ← prefixWords_wordTree]
    exact Lexeme.inAlphabet_intercalate hlexemes
  · rw [toPostfix, ← postfixWords_wordTree]
    exact Lexeme.inAlphabet_intercalate fun word hword =>
      hlexemes word (WordTree.mem_postfixWords.1 hword)
  · obtain ⟨phrase, htext, -⟩ := Infix.exists_phrase_toInfix hliterals
    rw [← htext]
    intro c hc
    obtain ⟨word, hword, hc⟩ := Lexeme.mem_join.1 hc
    exact (phrase.isLexeme word hword).inAlphabet hc

/-! ### Texts of diagnostics -/

namespace Diagnostic

/-- The lines that say why there is no value. -/
def explanations : List String :=
  ["Integer overflow; can't evaluate.", "Error: division by zero", "Error: modulo by zero",
    "Invalid expression; can't evaluate."]

theorem message_mem_explanations (d : Diagnostic) : d.message ∈ explanations := by
  cases d <;> simp [message, explanations]

/-- There is a space in every message, so it is neither empty nor a number. -/
theorem space_mem_message (d : Diagnostic) : ' ' ∈ d.message.toList := by
  cases d <;> simp [message]

theorem newline_not_mem_message (d : Diagnostic) : '\n' ∉ d.message.toList := by
  cases d <;> simp [message]

theorem message_ne_empty (d : Diagnostic) : d.message ≠ "" := by
  intro h
  have hspace := d.space_mem_message
  simp [h] at hspace

theorem message_ne_repr (d : Diagnostic) (n : Int) : d.message ≠ n.repr := by
  intro h
  have hspace := d.space_mem_message
  rw [h] at hspace
  exact Numeral.not_mem_repr (by decide) (by decide) n hspace

end Diagnostic

namespace Report

/-! ### Parts -/

/-- The parts of a report between its captions. -/
structure Parts where
  /-- The notation, and the text in all three. -/
  opening : String
  /-- What stands under the caption of the value, line by line. -/
  values : List String
  drawing : String
  instructions : String

def Parts.text (p : Parts) : String :=
  p.opening ++ "Final value: " ++ String.join (p.values.map (· ++ "\n")) ++ "\n" ++
    "Drawing:\n\n" ++ p.drawing ++ "\n\n" ++ "Instructions:\n\n" ++ p.instructions

/-- The worksheet that a report is made from, its text evaluated. -/
def sheet (input : String) : Worksheet := ((Worksheet.ofText input).evaluate true).2

/-- The number that the evaluation gave. -/
def number (input : String) : Int32 := ((Worksheet.ofText input).evaluate true).1

def opening (input : String) : String :=
  let read := Worksheet.ofText input
  (sheet input).status ++ "\n\n" ++ "Prefix:      " ++ read.toPrefix ++ "\n" ++ "Postfix:     " ++
    read.toPostfix ++ "\n" ++ "Infix:       " ++ read.toInfix ++ "\n\n"

def parts (input : String) : Parts where
  opening := opening input
  values := (sheet input).diagnostics.map Diagnostic.message ++
    if (sheet input).valid && !(sheet input).overflowed then [Numeral.text (number input)] else []
  drawing := (sheet input).drawingText
  instructions := { sheet input with diagnostics := [] }.instruct.1

theorem valueLines_eq (diagnostics : List Diagnostic) (hasValue : Bool) (v : Int32) :
    valueLines diagnostics (if hasValue then some v else none) =
      String.join ((diagnostics.map Diagnostic.message ++
        if hasValue then [Numeral.text v] else []).map (· ++ "\n")) := by
  cases hasValue <;> rfl

theorem text_eq_text_parts (input : String) : text input = (parts input).text := by
  have hlines := valueLines_eq (sheet input).diagnostics
    ((sheet input).valid && !(sheet input).overflowed) (number input)
  unfold Parts.text parts
  rw [← hlines]
  rfl

/-! ### The opening -/

theorem not_mem_status (w : Worksheet) : 'F' ∉ w.status.toList := by
  unfold Worksheet.status
  split
  · decide
  · cases w.written.getD .blank <;> decide

theorem not_mem_textAs {w : Worksheet} {name : String} {toText : Expr → String}
    (hname : 'F' ∉ name.toList) (htext : ∀ e, w.root = some e → 'F' ∉ (toText e).toList) :
    'F' ∉ (w.textAs name toText).toList := by
  unfold Worksheet.textAs
  split
  · cases hroot : w.root with
    | none => exact (by decide : 'F' ∉ Worksheet.emptyText.toList)
    | some e => exact htext e hroot
  · simpa using hname

/-- So the caption of the value stands in a report for the first time after the opening. -/
theorem not_mem_opening (input : String) : 'F' ∉ (opening input).toList := by
  have halphabet : Lexeme.inAlphabet 'F' = false := by decide
  have htexts : ∀ e, (Worksheet.ofText input).root = some e →
      'F' ∉ e.toPrefix.toList ∧ 'F' ∉ e.toPostfix.toList ∧ 'F' ∉ e.toInfix.toList := by
    intro e he
    obtain ⟨-, -, hliterals, hnesting, -⟩ := (Worksheet.coherent_ofText input).ofRoot e he
    obtain ⟨hbefore, hafter, hbetween⟩ := Expr.inAlphabet_texts hliterals hnesting
    exact ⟨fun h => by simp [hbefore _ h] at halphabet, fun h => by simp [hafter _ h] at halphabet,
      fun h => by simp [hbetween _ h] at halphabet⟩
  have hprefix : 'F' ∉ (Worksheet.ofText input).toPrefix.toList :=
    not_mem_textAs (by decide) fun e he => (htexts e he).1
  have hpostfix : 'F' ∉ (Worksheet.ofText input).toPostfix.toList :=
    not_mem_textAs (by decide) fun e he => (htexts e he).2.1
  have hinfix : 'F' ∉ (Worksheet.ofText input).toInfix.toList :=
    not_mem_textAs (by decide) fun e he => (htexts e he).2.2
  simp [opening, not_mem_status, hprefix, hpostfix, hinfix]

/-! ### Value and explanations -/

variable {input : String} {e : Expr}

theorem explained_sheet (input : String) : (sheet input).Explained :=
  Worksheet.explained_evaluate_ofText input

theorem settled_sheet (input : String) : (sheet input).Settled :=
  Worksheet.settled_evaluate true (Worksheet.ofText input)

theorem hasValue_iff : (sheet input).HasValue ↔
    (sheet input).valid = true ∧ (sheet input).overflowed = false := by
  rw [← (explained_sheet input).diagnostics_eq_nil_iff, (explained_sheet input).valid_and_fits_iff]

theorem values_of_hasValue (h : (sheet input).HasValue) :
    (parts input).values = [Numeral.text (number input)] := by
  have hnil := (explained_sheet input).diagnostics_eq_nil_iff.2 h
  obtain ⟨hvalid, hfits⟩ := hasValue_iff.1 h
  simp [parts, hnil, hvalid, hfits]

theorem values_of_not_hasValue (h : ¬(sheet input).HasValue) :
    (parts input).values = (sheet input).diagnostics.map Diagnostic.message ∧
      (sheet input).diagnostics ≠ [] := by
  have hflags : ((sheet input).valid && !(sheet input).overflowed) = false := by
    rw [hasValue_iff] at h
    simpa using h
  refine ⟨by simp [parts, hflags], ?_⟩
  rwa [Ne, (explained_sheet input).diagnostics_eq_nil_iff]

theorem instructions_eq (input : String) :
    (parts input).instructions =
      if (sheet input).overflowed then Worksheet.overflowText
      else if (sheet input).valid then (sheet input).steps else Worksheet.invalidText :=
  Worksheet.instruct_of_settled (settled_sheet input)

theorem instructions_of_hasValue (h : (sheet input).HasValue)
    (hroot : (sheet input).root = some e) :
    (parts input).instructions = Narration.instruct e ∧ e.value = number input := by
  obtain ⟨hvalid, hfits⟩ := hasValue_iff.1 h
  refine ⟨?_, (Worksheet.fst_evaluate_eq_value hvalid hfits hroot).symm⟩
  rw [instructions_eq, hvalid, hfits, Worksheet.steps, hroot]
  rfl

theorem instructions_of_not_hasValue (h : ¬(sheet input).HasValue) :
    (parts input).instructions =
      if (sheet input).overflowed then Worksheet.overflowText else Worksheet.invalidText := by
  rw [hasValue_iff] at h
  rw [instructions_eq]
  cases hfits : (sheet input).overflowed with
  | true => rfl
  | false =>
    cases hvalid : (sheet input).valid with
    | true => exact absurd ⟨hvalid, hfits⟩ h
    | false => rfl

theorem exists_drawing (h : (sheet input).HasValue) {op : Operator} {left right : Expr}
    {result : Int32} (hroot : (sheet input).root = some (.binary op left right result)) :
    ∃ heading rest, (parts input).drawing =
      heading ++ "\n" ++ String.ofList (List.replicate Drawing.width ' ') ++ "\n" ++
        String.ofList (List.replicate Drawing.rootCol ' ') ++ op.symbol ++ " " ++
        ("(" ++ Numeral.text (number input) ++ ")") ++ rest := by
  obtain ⟨hvalid, hfits⟩ := hasValue_iff.1 h
  obtain ⟨-, hnumber⟩ := instructions_of_hasValue h hroot
  have hevaluated : (sheet input).evaluated = true := by
    rcases settled_sheet input with hevaluated | ⟨hinvalid, -⟩
    · exact hevaluated
    · simp [hvalid] at hinvalid
  obtain ⟨rest, hrest⟩ := Drawing.exists_text_root false op left right result
  refine ⟨(Drawing.ofExpr true false (.binary op left right result)).heading, rest, ?_⟩
  have hcaption : Drawing.caption false result = "(" ++ Numeral.text (number input) ++ ")" := by
    rw [← hnumber]
    rfl
  rw [← hcaption, ← hrest]
  simp [parts, Worksheet.drawingText, Worksheet.drawing?, hvalid, hroot, hevaluated, hfits]

theorem mem_values_cases {line : String} (h : line ∈ (parts input).values) :
    (∃ d : Diagnostic, line = d.message) ∨ line = Numeral.text (number input) := by
  rw [parts, List.mem_append, List.mem_map] at h
  rcases h with ⟨d, -, rfl⟩ | h
  · exact .inl ⟨d, rfl⟩
  · split at h
    · exact .inr (List.mem_singleton.1 h)
    · cases h

theorem ne_empty_of_mem_values {line : String} (h : line ∈ (parts input).values) : line ≠ "" := by
  rcases mem_values_cases h with ⟨d, rfl⟩ | rfl
  · exact d.message_ne_empty
  · exact Numeral.text_ne_empty _

theorem newline_not_mem_of_mem_values {line : String} (h : line ∈ (parts input).values) :
    '\n' ∉ line.toList := by
  rcases mem_values_cases h with ⟨d, rfl⟩ | rfl
  · exact d.newline_not_mem_message
  · exact Numeral.not_mem_text (by decide) (by decide) _

/-- Under the caption of the value stands the value alone, or nothing but the diagnostics of the
evaluation, and no line is empty; the instructions and the drawing agree with what stands there. -/
theorem text_and_parts (input : String) :
    text input = (parts input).text ∧ 'F' ∉ (parts input).opening.toList ∧
      (∀ line ∈ (parts input).values, line ≠ "" ∧ '\n' ∉ line.toList) ∧
      ((sheet input).HasValue →
        (parts input).values = [Numeral.text (number input)] ∧
          (∀ v, (sheet input).root = some (.literal v) →
            (parts input).instructions = "Take " ++ Numeral.text (number input) ++
              " and do nothing to it; you get " ++ Numeral.text (number input) ++ ".") ∧
          ∀ op left right result, (sheet input).root = some (.binary op left right result) →
            (∃ told, (parts input).instructions =
              told ++ " The final result is " ++ Numeral.text (number input) ++ ".") ∧
            ∃ heading rest, (parts input).drawing =
              heading ++ "\n" ++ String.ofList (List.replicate Drawing.width ' ') ++ "\n" ++
                String.ofList (List.replicate Drawing.rootCol ' ') ++ op.symbol ++ " " ++
                ("(" ++ Numeral.text (number input) ++ ")") ++ rest) ∧
      (¬(sheet input).HasValue →
        (parts input).values = (sheet input).diagnostics.map Diagnostic.message ∧
          (parts input).values ≠ [] ∧
          (∀ line ∈ (parts input).values,
            line ∈ Diagnostic.explanations ∧ ∀ n : Int, line ≠ n.repr) ∧
          (parts input).instructions =
            if (sheet input).overflowed then Worksheet.overflowText else Worksheet.invalidText) := by
  refine ⟨text_eq_text_parts input, not_mem_opening input,
    fun line hline => ⟨ne_empty_of_mem_values hline, newline_not_mem_of_mem_values hline⟩, ?_, ?_⟩
  · intro hvalue
    refine ⟨values_of_hasValue hvalue, ?_, ?_⟩
    · intro v hroot
      obtain ⟨hinstructions, hnumber⟩ := instructions_of_hasValue hvalue hroot
      rw [hinstructions, ← hnumber]
      rfl
    · intro op left right result hroot
      obtain ⟨hinstructions, hnumber⟩ := instructions_of_hasValue hvalue hroot
      refine ⟨⟨" ".intercalate (Narration.sentences (.binary op left right result)), ?_⟩,
        exists_drawing hvalue hroot⟩
      rw [hinstructions, ← hnumber]
      rfl
  · intro hnone
    obtain ⟨hvalues, hne⟩ := values_of_not_hasValue hnone
    refine ⟨hvalues, by simpa [hvalues] using hne, ?_, instructions_of_not_hasValue hnone⟩
    intro line hline
    rw [hvalues, List.mem_map] at hline
    obtain ⟨d, -, rfl⟩ := hline
    exact ⟨d.message_mem_explanations, d.message_ne_repr⟩

/-- A negative value, and an overflow beside a zero divisor. -/
theorem text_and_parts_of_value_and_none :
    let root := Expr.binary .sub (.literal 7) (.literal 9) (-2)
    ((sheet "7-9").HasValue ∧ (sheet "7-9").root = some root ∧ number "7-9" = -2 ∧
        ¬(sheet "2147483647+1+1%0").HasValue) ∧
      (parts "7-9").values = [Numeral.text (-2)] ∧
      (∃ told, (parts "7-9").instructions =
        told ++ " The final result is " ++ Numeral.text (-2) ++ ".") ∧
      (parts "2147483647+1+1%0").values =
        ["Integer overflow; can't evaluate.", "Error: modulo by zero"] ∧
      (parts "2147483647+1+1%0").instructions = Worksheet.overflowText := by
  intro root
  have hvalue : (sheet "7-9").HasValue := ⟨by decide, by decide, by decide, by decide⟩
  have hroot : (sheet "7-9").root = some root := by decide
  have hnumber : number "7-9" = -2 := by decide
  have hfits : (sheet "2147483647+1+1%0").overflowed = true := by decide
  have hdiagnostics : (sheet "2147483647+1+1%0").diagnostics = [.overflow .add, .moduloByZero] := by
    decide
  have hnone : ¬(sheet "2147483647+1+1%0").HasValue := fun h => by simp [h.fits] at hfits
  obtain ⟨-, -, -, hholds, -⟩ := text_and_parts "7-9"
  obtain ⟨hvalues, -, hoperator⟩ := hholds hvalue
  obtain ⟨hinstructions, -⟩ := hoperator _ _ _ _ hroot
  obtain ⟨-, -, -, -, hfails⟩ := text_and_parts "2147483647+1+1%0"
  obtain ⟨hlines, -, -, htexts⟩ := hfails hnone
  rw [hnumber] at hvalues hinstructions
  rw [hdiagnostics] at hlines
  rw [hfits] at htexts
  exact ⟨⟨hvalue, hroot, hnumber, hnone⟩, hvalues, hinstructions, hlines, htexts⟩

end Report

end ArithTree
