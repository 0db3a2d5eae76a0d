import ArithTree.Text.Blank

/-! What trimming and cutting into fields make of texts. Proved: blanks at the ends of a text change
none of its fields, a blank anywhere else has a field on either side, words joined by spaces are the
fields of their text, and a text without blanks is its own only field. -/

namespace ArithTree.Text

/-- The longest pieces without a blank, as lists of characters. -/
def pieces (cs : List Char) : List (List Char) := (cs.splitOnP isBlank).filter (!·.isEmpty)

theorem fields_eq_map_pieces (s : String) : fields s = (pieces s.toList).map String.ofList := rfl

theorem pieces_append_blank_cons {c : Char} (hc : isBlank c = true) (cs cs' : List Char) :
    pieces (cs ++ c :: cs') = pieces cs ++ pieces cs' := by
  simp only [pieces]
  rw [List.splitOnP_append_cons _ _ hc, List.filter_append]

/-- Nothing but blanks is lost. -/
theorem exists_mem_pieces {c : Char} (hc : isBlank c = false) {cs : List Char} (h : c ∈ cs) :
    ∃ piece ∈ pieces cs, c ∈ piece := by
  induction cs with
  | nil => simp at h
  | cons d ds ih =>
    by_cases hd : isBlank d = true
    · have hrest : c ∈ ds := by
        rcases List.mem_cons.1 h with rfl | h
        · simp [hd] at hc
        · exact h
      obtain ⟨piece, hpiece, hmem⟩ := ih hrest
      have hsplit := pieces_append_blank_cons hd [] ds
      rw [List.nil_append] at hsplit
      exact ⟨piece, by simp [hsplit, hpiece], hmem⟩
    · obtain ⟨first, others, hds⟩ : ∃ first others, ds.splitOnP isBlank = first :: others :=
        List.exists_cons_of_ne_nil (List.splitOnP_ne_nil isBlank ds)
      have hsplit : pieces (d :: ds) = (d :: first) :: others.filter (!·.isEmpty) := by
        rw [pieces, List.splitOnP_cons_eq_if_modifyHead, if_neg hd, hds]
        rfl
      rcases List.mem_cons.1 h with rfl | h
      · exact ⟨c :: first, by simp [hsplit], by simp⟩
      · obtain ⟨piece, hpiece, hmem⟩ := ih h
        simp only [pieces, hds, List.mem_filter, List.mem_cons] at hpiece
        rcases hpiece with ⟨rfl | hothers, hne⟩
        · exact ⟨d :: piece, by simp [hsplit], by simp [hmem]⟩
        · refine ⟨piece, ?_, hmem⟩
          rw [hsplit, List.mem_cons, List.mem_filter]
          exact .inr ⟨hothers, hne⟩

theorem exists_mem_fields {s : String} {c : Char} (hc : isBlank c = false) (h : c ∈ s.toList) :
    ∃ word ∈ fields s, c ∈ word.toList := by
  obtain ⟨piece, hpiece, hmem⟩ := exists_mem_pieces hc h
  exact ⟨String.ofList piece, List.mem_map_of_mem hpiece, by simpa using hmem⟩

theorem not_mem_of_fields {s : String} {c : Char} (hc : isBlank c = false)
    (h : ∀ word ∈ fields s, c ∉ word.toList) : c ∉ s.toList := by
  intro hmem
  obtain ⟨word, hword, hmem⟩ := exists_mem_fields hc hmem
  exact h word hword hmem

/-! ### Blanks at the ends -/

theorem pieces_dropWhile (cs : List Char) : pieces (cs.dropWhile isBlank) = pieces cs := by
  induction cs with
  | nil => rfl
  | cons c cs ih =>
    by_cases hc : isBlank c = true
    · have hsplit := pieces_append_blank_cons hc [] cs
      rw [List.nil_append] at hsplit
      rw [List.dropWhile_cons_of_pos hc, ih, hsplit]
      rfl
    · rw [List.dropWhile_cons_of_neg hc]

theorem pieces_reverse_dropWhile (cs : List Char) :
    pieces (cs.dropWhile isBlank).reverse = pieces cs.reverse := by
  induction cs with
  | nil => rfl
  | cons c cs ih =>
    by_cases hc : isBlank c = true
    · rw [List.dropWhile_cons_of_pos hc, ih, List.reverse_cons, pieces_append_blank_cons hc]
      exact (List.append_nil _).symm
    · rw [List.dropWhile_cons_of_neg hc]

theorem fields_trim (s : String) : fields (trim s) = fields s := by
  simp only [fields_eq_map_pieces, trim, trimEnd, String.toList_ofList]
  rw [pieces_reverse_dropWhile, List.reverse_reverse, pieces_dropWhile]

/-- What trimming leaves is part of the text. -/
theorem mem_of_mem_trim {s : String} {c : Char} (h : c ∈ (trim s).toList) : c ∈ s.toList := by
  simp only [trim, trimEnd, String.toList_ofList, List.mem_reverse] at h
  have hreverse := List.dropWhile_subset isBlank h
  exact List.dropWhile_subset isBlank (List.mem_reverse.1 hreverse)

theorem head?_trim {s : String} {c : Char} (h : (trim s).toList.head? = some c) :
    isBlank c = false := by
  simp only [trim, trimEnd, String.toList_ofList] at h
  have hstart : ((s.toList.dropWhile isBlank).reverse.dropWhile isBlank).reverse <+:
      s.toList.dropWhile isBlank := by
    simpa using List.reverse_prefix.2
      (List.dropWhile_suffix isBlank (l := (s.toList.dropWhile isBlank).reverse))
  obtain ⟨rest, hrest⟩ := hstart
  have hhead : (s.toList.dropWhile isBlank).head? = some c := by
    rw [← hrest, List.head?_append, h]
    rfl
  have hnot := List.head?_dropWhile_not isBlank s.toList
  rw [hhead] at hnot
  simpa using hnot

theorem getLast?_trim {s : String} {c : Char} (h : (trim s).toList.getLast? = some c) :
    isBlank c = false := by
  simp only [trim, trimEnd, String.toList_ofList, List.getLast?_reverse] at h
  have hnot := List.head?_dropWhile_not isBlank (s.toList.dropWhile isBlank).reverse
  rw [h] at hnot
  simpa using hnot

/-- A blank inside a trimmed text has a field on either side. -/
theorem two_le_length_fields {s : String} {c : Char} (h : c ∈ (trim s).toList)
    (hc : isBlank c = true) : 2 ≤ (fields s).length := by
  rw [← fields_trim, fields_eq_map_pieces, List.length_map]
  obtain ⟨before, after, hsplit⟩ := List.append_of_mem h
  have hbefore : 1 ≤ (pieces before).length := by
    rcases before with _ | ⟨d, before⟩
    · have := head?_trim (s := s) (c := c) (by rw [hsplit]; rfl)
      simp [hc] at this
    · have hd := head?_trim (s := s) (c := d) (by rw [hsplit]; rfl)
      obtain ⟨piece, hpiece, -⟩ := exists_mem_pieces hd (show d ∈ d :: before by simp)
      exact List.length_pos_of_mem hpiece
  have hafter : 1 ≤ (pieces after).length := by
    rcases List.eq_nil_or_concat after with rfl | ⟨others, d, rfl⟩
    · have := getLast?_trim (s := s) (c := c) (by rw [hsplit]; simp)
      simp [hc] at this
    · have hd := getLast?_trim (s := s) (c := d) (by
        rw [hsplit]
        simp [List.getLast?_cons])
      obtain ⟨piece, hpiece, -⟩ := exists_mem_pieces hd (show d ∈ others.concat d by simp)
      exact List.length_pos_of_mem hpiece
  rw [hsplit, pieces_append_blank_cons hc, List.length_append]
  omega

/-! ### Texts of words -/

/-- A word that is a field of any text that it is written in between blanks. -/
def IsField (word : String) : Prop := word ≠ "" ∧ ∀ c ∈ word.toList, isBlank c = false

theorem pieces_of_isField {word : String} (h : IsField word) :
    pieces word.toList = [word.toList] := by
  rw [pieces, List.splitOnP_eq_singleton h.2]
  simp [h.1]

theorem pieces_append_space_cons {word : String} (h : IsField word) (cs : List Char) :
    pieces (word.toList ++ ' ' :: cs) = word.toList :: pieces cs := by
  rw [pieces, List.splitOnP_append_cons_of_forall_mem h.2 ' ' isBlank_space]
  simp [pieces, h.1]

theorem fields_of_isField {word : String} (h : IsField word) : fields word = [word] := by
  rw [fields_eq_map_pieces, pieces_of_isField h]
  simp

theorem fields_intercalate {words : List String} (h : ∀ word ∈ words, IsField word) :
    fields (" ".intercalate words) = words := by
  induction words with
  | nil => simp [fields]
  | cons word words ih =>
    rcases words with _ | ⟨next, words⟩
    · simpa using fields_of_isField (h word (by simp))
    · have hrest := ih fun w hw => h w (by simp [hw])
      have hspaced : (" ".intercalate (word :: next :: words)).toList =
          word.toList ++ ' ' :: (" ".intercalate (next :: words)).toList := by
        simp [String.intercalate_cons_cons]
      rw [fields_eq_map_pieces] at hrest ⊢
      rw [hspaced, pieces_append_space_cons (h word (by simp)), List.map_cons, hrest]
      simp

theorem dropWhile_of_forall_not {cs : List Char} (h : ∀ c ∈ cs, isBlank c = false) :
    cs.dropWhile isBlank = cs := by
  rcases cs with _ | ⟨c, cs⟩
  · rfl
  · exact List.dropWhile_cons_of_neg (by simp [h c])

theorem trim_of_forall_not_blank {s : String} (h : ∀ c ∈ s.toList, isBlank c = false) :
    trim s = s := by
  have hreverse : ∀ c ∈ s.toList.reverse, isBlank c = false := fun c hc => h c (by simpa using hc)
  simp [trim, trimEnd, dropWhile_of_forall_not h, dropWhile_of_forall_not hreverse]

/-- Two fields would have a blank between them. -/
theorem length_fields_le_one {s : String} (h : ∀ c ∈ s.toList, isBlank c = false) :
    (fields s).length ≤ 1 := by
  by_cases hempty : s = ""
  · simp [hempty, fields]
  · simp [fields_of_isField ⟨hempty, h⟩]

/-- What is left of a text of one field at most, once it is trimmed, is that field. -/
theorem trim_of_length_fields_le_one {s : String} (h : (fields s).length ≤ 1) :
    trim s = String.join (fields s) := by
  have hblank : ∀ c ∈ (trim s).toList, isBlank c = false := by
    intro c hc
    cases hc' : isBlank c with
    | false => rfl
    | true => exact absurd (two_le_length_fields hc hc') (by omega)
  rw [← fields_trim]
  by_cases hempty : trim s = ""
  · simp [hempty, fields]
  · simp [fields_of_isField ⟨hempty, hblank⟩]

end ArithTree.Text
