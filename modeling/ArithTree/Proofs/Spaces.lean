import Mathlib.Data.List.Destutter
import Mathlib.Data.List.DropRight
import ArithTree.Proofs.DigitRuns

/-! Spaces that make no difference. What cuts a text at its spaces, and makes nothing of a space, is
the same without the spaces at the ends of the text and with one for several inside it. The fields
of a text are cut so, and so is the search for a character outside the alphabet; and a text of the
alphabet is read by its fields alone. Main statement: a text is read as what is left of it when no
space is there without need. -/

namespace ArithTree

namespace Text

/-- Runs of spaces written as one space. -/
def squeeze (cs : List Char) : List Char := cs.destutter fun c d => c ≠ ' ' ∨ d ≠ ' '

/-- The text without the spaces at its two ends, and with one space for each run of them inside. -/
def squeezed (s : String) : String :=
  String.ofList (squeeze ((s.toList.dropWhile (· == ' ')).rdropWhile (· == ' ')))

/-! ### What is cut at spaces -/

/-- What is cut at the spaces of a text, and makes nothing of them. -/
structure DropsSpaces {β : Type} (f : List Char → List β) : Prop where
  cutsAt : CutsAt (· == ' ') f
  space : f [' '] = []

namespace DropsSpaces

variable {β : Type} {f : List Char → List β} (hf : DropsSpaces f)

include hf

theorem append_space_cons (cs cs' : List Char) : f (cs ++ ' ' :: cs') = f cs ++ f cs' := by
  rw [hf.cutsAt cs ' ' cs' rfl, hf.space, List.nil_append]

theorem nil : f [] = [] := by
  have hboth := hf.append_space_cons [] []
  rw [List.nil_append, hf.space] at hboth
  exact (List.append_eq_nil_iff.1 hboth.symm).1

theorem space_cons (cs : List Char) : f (' ' :: cs) = f cs := by
  have hsplit := hf.append_space_cons [] cs
  rwa [hf.nil] at hsplit

theorem dropWhile (cs : List Char) : f (cs.dropWhile (· == ' ')) = f cs := by
  induction cs with
  | nil => rfl
  | cons c cs ih =>
    by_cases hc : c = ' '
    · rw [hc, List.dropWhile_cons_of_pos rfl, ih, hf.space_cons]
    · rw [List.dropWhile_cons_of_neg (by simpa using hc)]

theorem rdropWhile (cs : List Char) : f (cs.rdropWhile (· == ' ')) = f cs := by
  induction cs using List.reverseRecOn with
  | nil => rfl
  | append_singleton cs c ih =>
    by_cases hc : c = ' '
    · rw [hc, List.rdropWhile_concat_pos _ _ _ rfl, ih, hf.append_space_cons cs [], hf.nil,
        List.append_nil]
    · rw [List.rdropWhile_concat_neg _ _ _ (by simpa using hc)]

theorem squeeze (cs : List Char) : f (Text.squeeze cs) = f cs := by
  -- the character at hand is kept, or it is a space and the next one is kept in its place
  have hkept : ∀ cs before c, f (before ++ cs.destutter' (fun c d => c ≠ ' ' ∨ d ≠ ' ') c) =
      f (before ++ c :: cs) := by
    intro cs
    induction cs with
    | nil => exact fun before c => rfl
    | cons d cs ih =>
      intro before c
      by_cases hcd : c ≠ ' ' ∨ d ≠ ' '
      · rw [List.destutter'_cons, if_pos hcd, List.append_cons, ih, ← List.append_cons]
      · obtain ⟨rfl, rfl⟩ : c = ' ' ∧ d = ' ' := by simpa using hcd
        rw [List.destutter'_cons, if_neg hcd, ih, hf.append_space_cons, hf.append_space_cons,
          hf.space_cons]
  cases cs with
  | nil => rfl
  | cons c cs => exact hkept cs [] c

theorem squeezed (s : String) : f (Text.squeezed s).toList = f s.toList := by
  rw [Text.squeezed, String.toList_ofList, hf.squeeze, hf.rdropWhile, hf.dropWhile]

end DropsSpaces

theorem dropsSpaces_pieces : DropsSpaces pieces where
  cutsAt cs c cs' hc := by
    rw [beq_iff_eq] at hc
    exact cutter_pieces.cutsAt cs c cs' (hc ▸ isBlank_space)
  space := pieces_singleton isBlank_space

theorem dropsSpaces_filter : DropsSpaces (List.filter (· != ' ')) where
  cutsAt := cutsAt_filter _ _
  space := rfl

theorem fields_squeezed (s : String) : fields (squeezed s) = fields s := by
  rw [fields_eq_map_pieces, dropsSpaces_pieces.squeezed, ← fields_eq_map_pieces]

end Text

/-! ### What a text is read as -/

/-- A character outside the alphabet is no space, and so it is found among the other characters. -/
theorem Lexeme.find?_stranger_squeezed (s : String) :
    (Text.squeezed s).toList.find? (!inAlphabet ·) = s.toList.find? (!inAlphabet ·) := by
  have hfind : ∀ cs : List Char, (cs.filter (· != ' ')).find? (!inAlphabet ·) =
      cs.find? (!inAlphabet ·) := by
    intro cs
    rw [List.find?_filter]
    congr 1
    funext c
    by_cases hc : c = ' '
    · rw [hc]
      decide
    · simp [hc]
  rw [← hfind, Text.dropsSpaces_filter.squeezed, hfind]

theorem Lexeme.validate_squeezed (s : String) : validate (Text.squeezed s) = validate s := by
  rw [validate, validate, words, words, find?_stranger_squeezed]
  cases s.toList.find? (!inAlphabet ·) with
  | none => simp only [Except.map]
  | some found => rfl

/-- A text that passes for an expression is read by its fields, whatever stands between them. -/
theorem Reading.ofText_eq_of_fields_eq {s s' : String}
    (hvalid : Lexeme.validate s = Lexeme.validate s') (hfields : Text.fields s = Text.fields s') :
    ofText s = ofText s' := by
  simp only [ofText, ← hvalid]
  cases halphabet : Lexeme.validate s with
  | error cause => simp only [ReadError.error_bind]
  | ok =>
    by_cases htwo : 2 ≤ (Text.fields s).length
    · -- a space stands between two fields, and then nothing but the fields is looked at
      have hspace := Lexeme.space_mem_trim (Lexeme.validate_eq_ok_iff.1 halphabet) htwo
      have hspace' := Lexeme.space_mem_trim (Lexeme.validate_eq_ok_iff.1 (hvalid ▸ halphabet))
        (hfields ▸ htwo)
      simp only [ReadError.ok_bind, Notation.detect_of_space hspace,
        Notation.detect_of_space hspace', Text.fields_trim, hfields]
      split
      · simp only [ReadError.ok_bind, Notation.prefixWords, Text.fields_trim, hfields]
      · split
        · simp only [ReadError.ok_bind, Notation.prefixWords, Text.fields_trim, hfields]
        · simp only [ReadError.error_bind]
    · have htrim : Text.trim s = Text.trim s' := by
        rw [Text.trim_of_length_fields_le_one (s := s) (by omega), hfields,
          Text.trim_of_length_fields_le_one (hfields ▸ by omega)]
      rw [htrim]

namespace Worksheet

/-- Spaces at the ends of a text and spaces after a space change nothing of what it is read as. -/
theorem ofText_squeezed (input : String) : ofText (Text.squeezed input) = ofText input := by
  rw [ofText, ofText, Reading.ofText_eq_of_fields_eq (Lexeme.validate_squeezed input)
    (Text.fields_squeezed input)]

example : Text.squeezed "  (1  +2) *   3 " = "(1 +2) * 3" ∧
    ofText "  (1  +2) *   3 " = ofText "(1 +2) * 3" := by decide

end Worksheet

end ArithTree
