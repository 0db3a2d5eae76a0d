import ArithTree.Drawing

/-! The root of a drawing. A tree is stamped from the top down, and a stamp never reaches the rows
above its own, so what is stamped for the operands leaves the root's row alone. Main statement: the
drawing of an evaluated operator shows in its second row the operator in the middle and its caption
beside it, whatever the operands are. -/

namespace ArithTree

/-! ### Texts -/

/-- Trimming stops at the last character that is no blank. -/
theorem Text.trimEnd_append {before : String} {c : Char} (hc : isBlank c = false)
    (h : before.toList.getLast? = some c) (after : String) :
    trimEnd (before ++ after) = before ++ trimEnd after := by
  have hstop : before.toList.reverse.dropWhile isBlank = before.toList.reverse := by
    obtain ⟨others, hothers⟩ := List.getLast?_eq_some_iff.1 h
    rw [hothers, List.reverse_append, List.reverse_singleton, List.singleton_append,
      List.dropWhile_cons_of_neg (by simp [hc])]
  apply String.toList_inj.1
  simp only [trimEnd, String.toList_ofList, String.toList_append, List.reverse_append,
    List.dropWhile_append, hstop]
  split
  · next hempty => simp [List.isEmpty_iff.1 hempty]
  · simp

theorem Numeral.length_text_le (v : Int32) : (text v).length ≤ 11 := by
  have hle := Int32.le_toInt v
  have hlt := Int32.toInt_lt v
  unfold text
  cases hv : v.toInt with
  | ofNat n =>
    rw [hv, Int.ofNat_eq_natCast] at hlt
    have hn : n < 10 ^ 11 := by omega
    exact (Nat.length_repr_le_iff (by decide)).2 hn
  | negSucc n =>
    have hn : n + 1 < 10 ^ 10 := by omega
    have hrepr := (Nat.length_repr_le_iff (k := 10) (by decide)).2 hn
    have hsign : (Int.negSucc n).repr = "-" ++ (n + 1).repr := rfl
    rw [hsign, String.length_append]
    have hone : "-".length = 1 := rfl
    omega

namespace Drawing

theorem length_caption_le (overflowed : Bool) (result : Int32) :
    (caption overflowed result).length ≤ 13 := by
  unfold caption
  split
  · decide
  · have hlength := Numeral.length_text_le result
    simp only [String.length_append]
    have hopening : "(".length = 1 := rfl
    have hclosing : ")".length = 1 := rfl
    omega

/-! ### Rows -/

namespace Canvas

variable {row : Fin height} {col : Fin width}

theorem getElem?_lines {c : Canvas} {cells : List Char} (hlength : cells.length = width)
    (h : ∀ col : Fin width, cells[col.val]? = some (c.cell row col)) :
    c.lines[row.val]? = some (String.ofList cells) := by
  have hcells : c.rows[row].toList = cells := by
    apply List.ext_getElem?
    intro i
    by_cases hi : i < width
    · have hcell := h ⟨i, hi⟩
      simp only [cell] at hcell
      rw [hcell]
      simp [hi]
    · rw [List.getElem?_eq_none (by simpa using hi), List.getElem?_eq_none (by omega)]
  simp [lines, ← hcells]

theorem cell_stampAll_of_row_ne {stamps : List Stamp} (h : ∀ s ∈ stamps, s.row ≠ row)
    (c : Canvas) : (c.stampAll stamps).cell row col = c.cell row col := by
  induction stamps generalizing c with
  | nil => rfl
  | cons s stamps ih =>
    rw [stampAll_cons, ih (fun other hother => h other (by simp [hother])), cell_stamp,
      if_neg (Ne.symm (h s (by simp)))]

end Canvas

theorem fitted_of_fits {row col room : Nat} {text : String}
    (h : col + text.length ≤ width ∧ text.length < room) :
    Mark.fitted row col room text = .text ⟨row, col, text⟩ := if_pos h

theorem row_stamp_fitted (row col room : Nat) (text : String) :
    (Mark.fitted row col room text).stamp.row = row := by
  unfold Mark.fitted
  split <;> rfl

/-- What is stamped of an operator after its label and its caption. -/
def belowMarks (evaluated overflowed : Bool) (level col : Nat) (left right : Expr) : List Mark :=
  if level < deepestLevel then
    barMarks level col ++
      .text ⟨endRow level, leftCol (level + 1) col, "|"⟩ ::
      marks evaluated overflowed (level + 1) (leftCol (level + 1) col) left ++
      .text ⟨endRow level, rightCol (level + 1) col, "|"⟩ ::
      marks evaluated overflowed (level + 1) (rightCol (level + 1) col) right
  else cutOperandMarks level col ++ cutOperandMarks level col

variable {evaluated overflowed : Bool} {op : Operator} {left right e : Expr} {result : Int32}
  {level col : Nat} {m : Mark}

theorem marks_binary :
    marks evaluated overflowed level col (.binary op left right result) =
      labelMark level col (.binary op left right result) ::
        captionMarks evaluated overflowed level col result ++
        belowMarks evaluated overflowed level col left right := rfl

theorem barRow_le_of_mem_belowMarks
    (hleft : ∀ col, ∀ m ∈ marks evaluated overflowed (level + 1) col left,
      labelRow (level + 1) ≤ m.stamp.row)
    (hright : ∀ col, ∀ m ∈ marks evaluated overflowed (level + 1) col right,
      labelRow (level + 1) ≤ m.stamp.row)
    (h : m ∈ belowMarks evaluated overflowed level col left right) :
    barRow level ≤ m.stamp.row := by
  have hends : barRow level ≤ endRow level := Nat.le_succ _
  have hnext : barRow level ≤ labelRow (level + 1) := by
    unfold barRow labelRow
    omega
  unfold belowMarks barMarks at h
  split at h
  · simp only [List.mem_append, List.mem_cons, List.not_mem_nil, or_false] at h
    rcases h with (((rfl | rfl) | rfl | h)) | rfl | h
    · exact Nat.le_refl _
    · exact Nat.le_refl _
    · exact hends
    · exact Nat.le_trans hnext (hleft _ m h)
    · exact hends
    · exact Nat.le_trans hnext (hright _ m h)
  · simp only [cutOperandMarks, List.mem_append, List.mem_cons, List.not_mem_nil, or_false,
      or_self] at h
    rcases h with rfl | rfl
    · exact Nat.le_refl _
    · exact hends

/-- Nothing of a tree is stamped above its root's label. -/
theorem labelRow_le_of_mem_marks (h : m ∈ marks evaluated overflowed level col e) :
    labelRow level ≤ m.stamp.row := by
  induction e generalizing level col m with
  | literal v =>
    rw [marks, List.mem_singleton] at h
    rw [h]
    exact Nat.le_of_eq (row_stamp_fitted _ _ _ _).symm
  | binary op left right result ihl ihr =>
    rw [marks_binary, List.mem_append, List.mem_cons] at h
    rcases h with (rfl | h) | h
    · exact Nat.le_of_eq (row_stamp_fitted _ _ _ _).symm
    · unfold captionMarks at h
      split at h
      · rw [List.mem_singleton.1 h]
        exact Nat.le_of_eq (row_stamp_fitted _ _ _ _).symm
      · cases h
    · have hbar := barRow_le_of_mem_belowMarks (fun _ _ h => ihl h) (fun _ _ h => ihr h) h
      exact Nat.le_trans (by simp [labelRow, barRow]) hbar

/-! ### The second row -/

/-- The cells of the root's row: its label in the middle, a column free, then its caption. -/
def rootRow (op : Operator) (caption : String) : List Char :=
  List.replicate rootCol ' ' ++ op.glyph :: ' ' :: (caption.toList ++
    List.replicate (width - rootCol - 2 - caption.length) ' ')

theorem getElem?_padded {cs : List Char} {n k : Nat} (h : k < cs.length + n) :
    (cs ++ List.replicate n ' ')[k]? = some (cs[k]?.getD ' ') := by
  by_cases hk : k < cs.length
  · simp [List.getElem?_append_left hk, hk]
  · have hroom : k - cs.length < n := by omega
    simp [List.getElem?_append_right (Nat.not_lt.1 hk), hroom, Nat.not_lt.1 hk]

theorem length_rootRow {caption : String} (h : caption.length ≤ 13) :
    (rootRow op caption).length = width := by
  simp only [rootRow, rootCol, width, List.length_append, List.length_cons, List.length_replicate,
    String.length_toList]
  omega

/-- The label and the caption of the root fit, whatever they are. -/
theorem stampAll_marks_root (overflowed : Bool) (op : Operator) (left right : Expr)
    (result : Int32) :
    Canvas.blank.stampAll
        ((marks true overflowed 0 rootCol (.binary op left right result)).map Mark.stamp) =
      ((Canvas.blank.stamp ⟨labelRow 0, rootCol, op.symbol⟩).stamp
        ⟨labelRow 0, rootCol + 2, caption overflowed result⟩).stampAll
          ((belowMarks true overflowed 0 rootCol left right).map Mark.stamp) := by
  have hlabel : labelMark 0 rootCol (.binary op left right result) =
      .text ⟨labelRow 0, rootCol, op.symbol⟩ := by
    rw [labelMark, Expr.label, fitted_of_fits]
    rw [op.length_symbol]
    decide
  have hcaption : captionMarks true overflowed 0 rootCol result =
      [.text ⟨labelRow 0, rootCol + 2, caption overflowed result⟩] := by
    have hlength := length_caption_le overflowed result
    rw [captionMarks, if_pos rfl, fitted_of_fits]
    simp only [rootCol, width, spread]
    omega
  rw [marks_binary, hlabel, hcaption, List.cons_append, List.singleton_append, List.map_cons,
    List.map_cons, Canvas.stampAll_cons, Canvas.stampAll_cons, Mark.stamp, Mark.stamp]

variable {col : Fin width}

theorem cell_root_top (overflowed : Bool) (op : Operator) (left right : Expr) (result : Int32) :
    (ofExpr true overflowed (.binary op left right result)).canvas.cell 0 col = ' ' := by
  rw [ofExpr, Canvas.cell_stampAll_of_row_ne, Canvas.cell_blank]
  intro s hs
  obtain ⟨m, hm, rfl⟩ := List.mem_map.1 hs
  have hrow := labelRow_le_of_mem_marks hm
  exact Nat.ne_of_gt hrow

/-- Each cell of the row holds the caption's character, or else the label's, or else a blank. -/
theorem getElem?_rootRow (op : Operator) (caption : String) :
    (rootRow op caption)[col.val]? =
      some ((Stamp.glyph? ⟨labelRow 0, rootCol + 2, caption⟩ col).getD
        ((Stamp.glyph? ⟨labelRow 0, rootCol, op.symbol⟩ col).getD ' ')) := by
  have hcol := col.isLt
  simp only [Stamp.glyph?, Operator.toList_symbol, rootRow]
  rcases Nat.lt_or_ge col.val rootCol with hleft | hleft
  · rw [List.getElem?_append_left (by simpa using hleft)]
    simp [hleft, Nat.not_le.2 hleft, show ¬rootCol + 2 ≤ col.val by omega]
  · obtain ⟨k, hk⟩ := Nat.exists_eq_add_of_le hleft
    rw [hk, List.getElem?_append_right (by simp), List.length_replicate, Nat.add_sub_cancel_left]
    -- the label's column, the free one, and those from the caption on
    rcases k with _ | _ | k
    · simp [show ¬rootCol + 2 ≤ rootCol by omega]
    · simp
    · have hshift : rootCol + (k + 1 + 1) - (rootCol + 2) = k := by omega
      rw [if_pos (by omega), hshift, List.getElem?_cons_succ, List.getElem?_cons_succ,
        getElem?_padded (by rw [String.length_toList]; omega)]
      simp

theorem cell_root (overflowed : Bool) (op : Operator) (left right : Expr) (result : Int32) :
    (rootRow op (caption overflowed result))[col.val]? =
      some ((ofExpr true overflowed (.binary op left right result)).canvas.cell 1 col) := by
  have hbelow : ∀ s ∈ (belowMarks true overflowed 0 rootCol left right).map Mark.stamp,
      s.row ≠ (1 : Fin height) := by
    intro s hs
    obtain ⟨m, hm, rfl⟩ := List.mem_map.1 hs
    have hrow := barRow_le_of_mem_belowMarks (fun _ _ h => labelRow_le_of_mem_marks h)
      (fun _ _ h => labelRow_le_of_mem_marks h) hm
    exact Nat.ne_of_gt hrow
  have hrow : ((1 : Fin height) : Nat) = labelRow 0 := rfl
  rw [ofExpr, stampAll_marks_root, Canvas.cell_stampAll_of_row_ne hbelow, Canvas.cell_stamp,
    Canvas.cell_stamp, Canvas.cell_blank, if_pos hrow, if_pos hrow,
    getElem?_rootRow]

/-- The first row is empty and the second is the root's, whatever comes below. -/
theorem exists_rows_root (overflowed : Bool) (op : Operator) (left right : Expr)
    (result : Int32) :
    ∃ others, (ofExpr true overflowed (.binary op left right result)).rows =
      String.ofList (List.replicate width ' ') ::
        String.ofList (rootRow op (caption overflowed result)) :: others := by
  generalize hd : ofExpr true overflowed (.binary op left right result) = d
  have htop : d.rows[0]? = some (String.ofList (List.replicate width ' ')) := by
    refine @Canvas.getElem?_lines 0 _ _ List.length_replicate fun col => ?_
    rw [← hd, cell_root_top]
    simp
  have hroot : d.rows[1]? = some (String.ofList (rootRow op (caption overflowed result))) := by
    refine @Canvas.getElem?_lines 1 _ _ (length_rootRow (length_caption_le _ _)) fun col => ?_
    rw [← hd, cell_root]
  rcases hrows : d.rows with _ | ⟨first, _ | ⟨second, others⟩⟩
  · simp [hrows] at htop
  · simp [hrows] at hroot
  · rw [hrows, List.getElem?_cons_zero, Option.some.injEq] at htop
    rw [hrows, List.getElem?_cons_succ, List.getElem?_cons_zero, Option.some.injEq] at hroot
    exact ⟨others, by rw [htop, hroot]⟩

/-! ### The text of a drawing -/

theorem getLast?_caption (overflowed : Bool) (result : Int32) :
    (caption overflowed result).toList.getLast? = some ')' := by
  unfold caption
  split
  · rfl
  · rw [String.toList_append, List.getLast?_append]
    rfl

theorem exists_ofList_rootRow (op : Operator) (caption : String) :
    ∃ pad, String.ofList (rootRow op caption) =
      String.ofList (List.replicate rootCol ' ') ++ op.symbol ++ " " ++ caption ++ pad := by
  refine ⟨String.ofList (List.replicate (width - rootCol - 2 - caption.length) ' '), ?_⟩
  apply String.toList_inj.1
  simp [rootRow]

theorem exists_intercalate_cons (line : String) (lines : List String) :
    ∃ tail, "\n".intercalate (line :: lines) = line ++ tail := by
  rcases lines with _ | ⟨next, lines⟩
  · exact ⟨"", by simp⟩
  · exact ⟨_, by rw [String.intercalate_cons_cons, String.append_assoc]⟩

/-- An evaluated operator stands in the middle of the second row, with its caption beside it. -/
theorem exists_text_root (overflowed : Bool) (op : Operator) (left right : Expr) (result : Int32) :
    ∃ rest,
      (ofExpr true overflowed (.binary op left right result)).text =
        (ofExpr true overflowed (.binary op left right result)).heading ++ "\n" ++
          String.ofList (List.replicate width ' ') ++ "\n" ++
          String.ofList (List.replicate rootCol ' ') ++ op.symbol ++ " " ++
          caption overflowed result ++ rest := by
  obtain ⟨others, hrows⟩ := exists_rows_root overflowed op left right result
  obtain ⟨pad, hpad⟩ := exists_ofList_rootRow op (caption overflowed result)
  obtain ⟨tail, htail⟩ := exists_intercalate_cons
    (String.ofList (rootRow op (caption overflowed result))) others
  generalize ofExpr true overflowed (.binary op left right result) = d at *
  let before := d.heading ++ "\n" ++ String.ofList (List.replicate width ' ') ++ "\n" ++
    String.ofList (List.replicate rootCol ' ') ++ op.symbol ++ " " ++ caption overflowed result
  have hends : before.toList.getLast? = some ')' := by
    rw [String.toList_append, List.getLast?_append, getLast?_caption]
    rfl
  have hsplit : d.heading ++ "\n" ++ "\n".intercalate d.rows = before ++ (pad ++ tail) := by
    rw [hrows, String.intercalate_cons_cons, htail, hpad]
    simp only [before, String.append_assoc]
  -- nothing up to the caption is trimmed
  exact ⟨Text.trimEnd (pad ++ tail), by rw [text, hsplit, Text.trimEnd_append (by decide) hends]⟩

end Drawing

end ArithTree
