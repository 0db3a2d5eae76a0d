import ArithTree.Drawing.Canvas

/-! What a list of stamps leaves on a canvas. The last stamp on a cell decides what the cell holds,
and a cell without a stamp stays as it was. Stamps that never meet can be taken in any order, so
their ink is described by a relation between rows, columns and characters: `Draws` says that the
relation is exactly the ink of the stamps, and the relations of two lists of stamps that never meet
are joined. Main statement: the lines of a canvas that was blank before its stamps, cell by cell. -/

namespace ArithTree.Drawing

/-- The character that a stamp puts into a cell. -/
def Stamp.at? (s : Stamp) (row col : Nat) : Option Char :=
  if row = s.row then s.glyph? col else none

theorem Stamp.at?_eq_some_iff {s : Stamp} {row col : Nat} {ch : Char} :
    s.at? row col = some ch ↔
      row = s.row ∧ s.col ≤ col ∧ s.text.toList[col - s.col]? = some ch := by
  simp only [at?, glyph?, Option.ite_none_right_eq_some]

/-- The character that the last stamp on a cell puts there. -/
def ink? (stamps : List Stamp) (row col : Nat) : Option Char :=
  stamps.reverse.findSome? (·.at? row col)

@[simp] theorem ink?_nil (row col : Nat) : ink? [] row col = none := rfl

theorem ink?_append (earlier later : List Stamp) (row col : Nat) :
    ink? (earlier ++ later) row col = (ink? later row col).or (ink? earlier row col) := by
  simp only [ink?, List.reverse_append, List.findSome?_append]

@[simp] theorem ink?_singleton (s : Stamp) (row col : Nat) : ink? [s] row col = s.at? row col := by
  simp [ink?]

theorem ink?_cons (s : Stamp) (stamps : List Stamp) (row col : Nat) :
    ink? (s :: stamps) row col = (ink? stamps row col).or (s.at? row col) := by
  rw [← List.singleton_append, ink?_append, ink?_singleton]

theorem exists_ink?_of_mem {s : Stamp} {stamps : List Stamp} {row col : Nat} {ch : Char}
    (hs : s ∈ stamps) (h : s.at? row col = some ch) : ∃ ch', ink? stamps row col = some ch' := by
  rw [← Option.isSome_iff_exists, ink?, List.findSome?_isSome_iff]
  exact ⟨s, List.mem_reverse.2 hs, by rw [h]; rfl⟩

theorem exists_mem_of_ink? {stamps : List Stamp} {row col : Nat} {ch : Char}
    (h : ink? stamps row col = some ch) : ∃ s ∈ stamps, s.at? row col = some ch := by
  obtain ⟨s, hs, hch⟩ := List.exists_of_findSome?_eq_some h
  exact ⟨s, List.mem_reverse.1 hs, hch⟩

/-! ### Cells and lines -/

namespace Canvas

/-- A cell holds what the last stamp on it puts there, or else what it held before. -/
theorem cell_stampAll (c : Canvas) (stamps : List Stamp) (row : Fin height) (col : Fin width) :
    (c.stampAll stamps).cell row col = (ink? stamps row col).getD (c.cell row col) := by
  induction stamps generalizing c with
  | nil => rfl
  | cons s stamps ih =>
    have hstamp : (c.stamp s).cell row col = (s.at? row col).getD (c.cell row col) := by
      rw [cell_stamp, Stamp.at?]
      split <;> rfl
    rw [stampAll_cons, ih, hstamp, ink?_cons]
    cases ink? stamps row col <;> rfl

end Canvas

/-- The character in a column of a line. -/
def glyphIn? (lines : List String) (row col : Nat) : Option Char :=
  lines[row]?.bind (·.toList[col]?)

theorem glyphIn?_lines_eq_some_iff {c : Canvas} {row col : Nat} {ch : Char} :
    glyphIn? c.lines row col = some ch ↔
      ∃ (hrow : row < height) (hcol : col < width), c.cell ⟨row, hrow⟩ ⟨col, hcol⟩ = ch := by
  simp only [glyphIn?, Canvas.lines, List.getElem?_map, Option.bind_map, Function.comp_def,
    String.toList_ofList, Option.bind_eq_some_iff]
  constructor
  · rintro ⟨cells, hcells, hch⟩
    obtain ⟨hrow, rfl⟩ := List.getElem?_eq_some_iff.1 hcells
    obtain ⟨hcol, rfl⟩ := List.getElem?_eq_some_iff.1 hch
    exact ⟨by simpa using hrow, by simpa using hcol, rfl⟩
  · rintro ⟨hrow, hcol, rfl⟩
    refine ⟨c.rows[row], ?_, ?_⟩
    · simp [hrow]
    · simp [Canvas.cell, hcol]

theorem mem_line_iff {lines : List String} {ch : Char} :
    (∃ line ∈ lines, ch ∈ line.toList) ↔ ∃ row col, glyphIn? lines row col = some ch := by
  simp only [glyphIn?, Option.bind_eq_some_iff, List.mem_iff_getElem?]
  constructor
  · rintro ⟨line, ⟨row, hrow⟩, col, hcol⟩
    exact ⟨row, col, line, hrow, hcol⟩
  · rintro ⟨row, col, line, hrow, hcol⟩
    exact ⟨line, ⟨row, hrow⟩, col, hcol⟩

theorem map_length_lines (c : Canvas) :
    c.lines.map String.length = List.replicate height width := by
  rw [List.eq_replicate_iff]
  simp [Canvas.lines]

/-! ### Histories -/

/-- The cells under the text of a stamp, on the canvas or not. -/
def Stamp.Covers (s : Stamp) (row col : Nat) : Prop :=
  row = s.row ∧ s.col ≤ col ∧ col < s.col + s.text.length

theorem Stamp.at?_eq_none_iff {s : Stamp} {row col : Nat} :
    s.at? row col = none ↔ ¬s.Covers row col := by
  have hlength : s.text.toList.length = s.text.length := String.length_toList
  unfold at? glyph? Covers
  split
  · split
    · rw [List.getElem?_eq_none_iff]
      omega
    · simp only [true_iff]
      omega
  · simp only [true_iff]
    omega

theorem Stamp.covers_of_at? {s : Stamp} {row col : Nat} {ch : Char} (h : s.at? row col = some ch) :
    s.Covers row col := by
  obtain ⟨hrow, hle, hch⟩ := at?_eq_some_iff.1 h
  obtain ⟨hlt, -⟩ := List.getElem?_eq_some_iff.1 hch
  rw [String.length_toList] at hlt
  exact ⟨hrow, hle, by omega⟩

theorem ink?_eq_none_iff {stamps : List Stamp} {row col : Nat} :
    ink? stamps row col = none ↔ ∀ s ∈ stamps, ¬s.Covers row col := by
  simp only [ink?, List.findSome?_eq_none_iff, List.mem_reverse, Stamp.at?_eq_none_iff]

/-- The ink of a cell is that of the last stamp that covers it. -/
theorem ink?_eq_some_iff {stamps : List Stamp} {row col : Nat} {ch : Char} :
    ink? stamps row col = some ch ↔
      ∃ before s after, stamps = before ++ s :: after ∧ s.at? row col = some ch ∧
        ∀ later ∈ after, ¬later.Covers row col := by
  constructor
  · intro h
    obtain ⟨after, s, before, hstamps, hs, hafter⟩ := List.findSome?_eq_some_iff.1 h
    refine ⟨before.reverse, s, after.reverse, ?_, hs, ?_⟩
    · rw [← List.reverse_reverse stamps, hstamps]
      simp
    · intro later hlater
      exact Stamp.at?_eq_none_iff.1 (hafter later (List.mem_reverse.1 hlater))
  · rintro ⟨before, s, after, rfl, hs, hafter⟩
    rw [ink?_append, ink?_cons, hs, ink?_eq_none_iff.2 hafter]
    rfl

/-- Stamps on a blank canvas leave sixteen rows of eighty characters, wherever they lie and whatever
their texts. A cell holds the character that the last stamp on it has there, or a space if no stamp
covers it. -/
theorem Canvas.lines_stampAll_blank (stamps : List Stamp) :
    (blank.stampAll stamps).lines.map String.length = List.replicate 16 80 ∧
      ∀ (row : Fin 16) (col : Fin 80), ∃ ch,
        glyphIn? (blank.stampAll stamps).lines row col = some ch ∧
          ((∃ before s after, stamps = before ++ s :: after ∧ s.Covers row col ∧
              (∀ later ∈ after, ¬later.Covers row col) ∧
              s.text.toList[col.val - s.col]? = some ch) ∨
            (∀ s ∈ stamps, ¬s.Covers row col) ∧ ch = ' ') := by
  refine ⟨map_length_lines _, fun row col => ?_⟩
  have hglyph : glyphIn? (blank.stampAll stamps).lines row col =
      some ((ink? stamps row col).getD ' ') := by
    rw [glyphIn?_lines_eq_some_iff]
    exact ⟨row.isLt, col.isLt, by rw [cell_stampAll, cell_blank]⟩
  refine ⟨_, hglyph, ?_⟩
  cases h : ink? stamps row col with
  | none => exact .inr ⟨ink?_eq_none_iff.1 h, rfl⟩
  | some ch =>
    obtain ⟨before, s, after, rfl, hs, hafter⟩ := ink?_eq_some_iff.1 h
    have hch := (Stamp.at?_eq_some_iff.1 hs).2.2
    exact .inl ⟨before, s, after, rfl, Stamp.covers_of_at? hs, hafter, hch⟩

/-! ### Ink without an order -/

/-- The ink of the stamps is exactly what the relation shows. -/
def Draws (stamps : List Stamp) (shows : Nat → Nat → Char → Prop) : Prop :=
  ∀ row col ch, ink? stamps row col = some ch ↔ shows row col ch

variable {stamps earlier later : List Stamp} {shows before after : Nat → Nat → Char → Prop}

theorem Draws.nil : Draws [] fun _ _ _ => False := fun _ _ _ => by simp

theorem Draws.singleton (s : Stamp) :
    Draws [s] fun row col ch => row = s.row ∧ s.col ≤ col ∧ s.text.toList[col - s.col]? = some ch :=
  fun row col ch => by rw [ink?_singleton, Stamp.at?_eq_some_iff]

theorem Draws.congr (h : Draws stamps before)
    (hiff : ∀ row col ch, before row col ch ↔ after row col ch) : Draws stamps after :=
  fun row col ch => (h row col ch).trans (hiff row col ch)

theorem Draws.exists_shows {s : Stamp} {row col : Nat} {ch : Char} (h : Draws stamps before)
    (hs : s ∈ stamps) (hch : s.at? row col = some ch) : ∃ ch', before row col ch' := by
  obtain ⟨ch', hink⟩ := exists_ink?_of_mem hs hch
  exact ⟨ch', (h row col ch').1 hink⟩

/-- Earlier ink is left where no later stamp comes. -/
theorem Draws.over (hbefore : Draws earlier before) (hafter : Draws later after) :
    Draws (earlier ++ later) fun row col ch =>
      after row col ch ∨ before row col ch ∧ ∀ ch', ¬after row col ch' := by
  intro row col ch
  rw [ink?_append, Option.or_eq_some_iff, Option.eq_none_iff_forall_ne_some, hafter row col ch,
    hbefore row col ch, and_comm]
  simp only [ne_eq, hafter row col]

/-- Stamps that meet no later one keep all their ink. -/
theorem Draws.append (hbefore : Draws earlier before) (hafter : Draws later after)
    (hapart : ∀ row col ch ch', before row col ch → ¬after row col ch') :
    Draws (earlier ++ later) fun row col ch => before row col ch ∨ after row col ch := by
  refine (hbefore.over hafter).congr fun row col ch => ?_
  rw [or_comm, and_iff_left_of_imp fun h ch' => hapart row col ch ch' h]

/-- The same stamps once more change nothing. -/
theorem Draws.again (h : Draws stamps before) : Draws (stamps ++ stamps) before := by
  refine (h.over h).congr fun row col ch => or_iff_left_of_imp ?_
  rintro ⟨hbefore, hnone⟩
  exact absurd hbefore (hnone ch)

/-- A text of one character is ink in one cell. -/
theorem Draws.char {row col : Nat} {text : String} {c : Char} (htext : text.toList = [c]) :
    Draws [⟨row, col, text⟩] fun row' col' ch => row' = row ∧ col' = col ∧ ch = c := by
  refine (Draws.singleton _).congr fun row' col' ch => and_congr_right fun _ => ?_
  simp only [htext]
  constructor
  · rintro ⟨hle, hch⟩
    obtain ⟨hlt, hget⟩ := List.getElem?_eq_some_iff.1 hch
    have hcol : col' - col = 0 := by simpa using hlt
    exact ⟨by omega, by simpa [hcol] using hget.symm⟩
  · rintro ⟨rfl, rfl⟩
    simp

end ArithTree.Drawing
