import ArithTree.Proofs.CompleteDrawings

/-! Cuts on the canvas. A cut is one cross, no text that is drawn has a cross in it, and what is
stamped after a cut stays away from its cell: the caption stands beside the label, everything else
of a tree below its label, and the operands in strips that never meet. Only where both operands of
an operator are too deep is the same cut made twice. Main statement: a drawing is complete exactly
when it shows no cross, which is when the tree is no deeper than the drawing and all texts have
their room. -/

namespace ArithTree.Drawing

variable {evaluated overflowed : Bool} {level col start row col' : Nat} {ch : Char}
  {op : Operator} {left right e : Expr} {result : Int32} {s : Site} {m m' : Mark}

/-! ### Places -/

/-- The nodes of a tree that is put at a column of a level, each in its place. The nodes too deep to
be drawn have their places as well. -/
def places (level col : Nat) : Expr → List Site
  | .literal v => [⟨level, col, .literal v⟩]
  | .binary op left right result =>
    ⟨level, col, .binary op left right result⟩ ::
      (places (level + 1) (leftOf level col) left ++ places (level + 1) (rightOf level col) right)

theorem places_eq_sites (h : level + e.nesting ≤ 4) : places level col e = sites level col e := by
  induction e generalizing level col with
  | literal v => rfl
  | binary op left right result ihl ihr =>
    rw [Expr.nesting] at h
    rw [places, sites, if_pos (by omega), ihl (by omega), ihr (by omega)]

/-! ### Marks that stay away from a cut -/

/-- The later mark stays away from the earlier one if that is a cut, or is the same cut again. -/
def Mark.Spares (m later : Mark) : Prop :=
  ∀ row col, m = .cut row col → later = .cut row col ∨ later.stamp.at? row col = none

theorem Mark.spares_of_text (s : Stamp) (later : Mark) : (Mark.text s).Spares later := by
  intro row col h
  cases h

theorem Mark.spares_of_row_ne (h : m'.stamp.row ≠ m.stamp.row) : m.Spares m' := by
  rintro row col rfl
  exact .inr (if_neg h.symm)

/-- Marks in cells where the others show nothing stay away from them. -/
theorem Mark.spares_of_draws {ms : List Mark} {shows : Nat → Nat → Char → Prop}
    (h : Draws (ms.map Mark.stamp) shows) (hm' : m' ∈ ms)
    (hapart : ∀ row col ch, m = .cut row col → ¬shows row col ch) : m.Spares m' := by
  intro row col hcut
  refine .inr (Option.eq_none_iff_forall_ne_some.2 fun ch hch => ?_)
  obtain ⟨ch', hshows⟩ := h.exists_shows (List.mem_map_of_mem hm') hch
  exact hapart row col ch' hcut hshows

theorem pairwise_spares_inscriptions (row : Nat) {is : List Inscription}
    (h : is.Pairwise fun i j => ∀ col ch ch', i.Shows col ch → ¬j.Shows col ch') :
    (is.map (Inscription.mark row)).Pairwise Mark.Spares := by
  rw [List.pairwise_map]
  refine h.imp fun {i j} hapart => ?_
  have hdraws : Draws ([j.mark row].map Mark.stamp) _ := j.draws_mark row
  refine Mark.spares_of_draws hdraws (List.mem_singleton.2 rfl) ?_
  rintro row' col ch hcut ⟨-, hshows⟩
  rw [Inscription.mark_eq] at hcut
  split at hcut
  · cases hcut
  · next hfits =>
    cases hcut
    exact hapart i.col 'X' ch (by rw [Inscription.Shows, if_neg hfits]; exact ⟨rfl, rfl⟩) hshows

/-- A cut of one operand is outside the strip of the other one. -/
theorem spares_of_mem_operands (hnext : level + 1 ≤ 4)
    (hm : m ∈ marks evaluated overflowed (level + 1) (start + firstCol (level + 1)) left)
    (hm' : m' ∈ marks evaluated overflowed (level + 1)
      (start + spread (level + 1) + firstCol (level + 1)) right) : m.Spares m' := by
  refine Mark.spares_of_draws (draws_marks hnext) hm' ?_
  rintro row col ch rfl hright
  have hcross : (Mark.cut row col).stamp.at? row col = some 'X' :=
    Stamp.at?_eq_some_iff.2 ⟨rfl, Nat.le_refl _, by simp [Mark.stamp]⟩
  obtain ⟨ch', hleft⟩ := (draws_marks hnext).exists_shows (List.mem_map_of_mem hm) hcross
  exact not_inStrip_right (hleft.bounds hnext).1 (hright.bounds hnext).1

theorem pairwise_spares_texts {texts ms : List Mark} (htexts : ∀ m ∈ texts, ∃ s, m = .text s)
    (h : ms.Pairwise Mark.Spares) : (texts ++ ms).Pairwise Mark.Spares := by
  have hspares : ∀ m ∈ texts, ∀ m', m.Spares m' := by
    intro m hm m'
    obtain ⟨s, rfl⟩ := htexts m hm
    exact Mark.spares_of_text s m'
  exact List.pairwise_append.2
    ⟨List.pairwise_of_forall_mem_list fun m hm m' _ => hspares m hm m', h,
      fun m hm m' _ => hspares m hm m'⟩

/-- Both operands below the deepest level are cut in one cell, under the same post. -/
theorem pairwise_spares_cutOperandMarks (level col : Nat) :
    (cutOperandMarks level col ++ cutOperandMarks level col).Pairwise Mark.Spares := by
  have hpost : (Mark.cut (endRow level) col).Spares (.text ⟨barRow level, col, "|"⟩) :=
    Mark.spares_of_row_ne (Nat.ne_of_lt (Nat.lt_succ_self _))
  have hcut : (Mark.cut (endRow level) col).Spares (.cut (endRow level) col) := fun _ _ h => .inl h
  have htext : ∀ m' : Mark, (Mark.text ⟨barRow level, col, "|"⟩).Spares m' :=
    Mark.spares_of_text _
  simp [cutOperandMarks, hpost, hcut, htext]

theorem pairwise_spares_belowMarks
    (hleft : level < 4 → (marks evaluated overflowed (level + 1) (start + firstCol (level + 1))
      left).Pairwise Mark.Spares)
    (hright : level < 4 → (marks evaluated overflowed (level + 1)
      (start + spread (level + 1) + firstCol (level + 1)) right).Pairwise Mark.Spares) :
    (belowMarks evaluated overflowed level (start + firstCol level) left right).Pairwise
      Mark.Spares := by
  unfold belowMarks
  split
  · next hdeep =>
    have hdeep : level < 4 := hdeep
    rw [leftCol_succ, rightCol_succ, leftOf_firstCol hdeep, rightOf_firstCol hdeep,
      List.append_cons (barMarks level _)]
    have hbar : ∀ m ∈ barMarks level (start + firstCol level) ++
        [.text ⟨endRow level, start + firstCol (level + 1), "|"⟩], ∃ s, m = .text s := by
      simp [barMarks]
    refine List.pairwise_append.2 ⟨pairwise_spares_texts hbar (hleft hdeep),
      @pairwise_spares_texts [_] _ (by simp) (hright hdeep), fun m hm m' hm' => ?_⟩
    rcases List.mem_append.1 hm with hm | hm
    · obtain ⟨s, rfl⟩ := hbar m hm
      exact Mark.spares_of_text s m'
    · rcases List.mem_cons.1 hm' with rfl | hm'
      · have hrow : labelRow (level + 1) ≤ m.stamp.row := labelRow_le_of_mem_marks hm
        exact Mark.spares_of_row_ne (Nat.ne_of_lt hrow)
      · exact spares_of_mem_operands hdeep hm hm'
  · exact pairwise_spares_cutOperandMarks level _

/-- Whatever is stamped after a cut of a tree stays away from it. -/
theorem pairwise_spares_marks (hlevel : level ≤ 4) :
    (marks evaluated overflowed level (start + firstCol level) e).Pairwise Mark.Spares := by
  induction e generalizing level start with
  | literal v =>
    rw [marks_inscriptions_literal hlevel]
    exact pairwise_spares_inscriptions _ (Site.pairwise_inscriptions _)
  | binary op left right result ihl ihr =>
    rw [marks_inscriptions_binary hlevel]
    refine List.pairwise_append.2 ⟨pairwise_spares_inscriptions _ (Site.pairwise_inscriptions _),
      pairwise_spares_belowMarks (fun h => ihl h) (fun h => ihr h), fun m hm m' hm' => ?_⟩
    obtain ⟨i, -, rfl⟩ := List.mem_map.1 hm
    have hbelow : barRow level ≤ m'.stamp.row :=
      barRow_le_of_mem_belowMarks (fun _ _ h => labelRow_le_of_mem_marks h)
        (fun _ _ h => labelRow_le_of_mem_marks h) hm'
    have hrow : (i.mark (labelRow level)).stamp.row = labelRow level := row_stamp_fitted _ _ _ _
    refine Mark.spares_of_row_ne ?_
    rw [hrow]
    exact Nat.ne_of_gt hbelow

/-! ### Crosses -/

theorem isCut_fitted_of_cross {row room : Nat} {text : String} (htext : 'X' ∉ text.toList)
    (h : 'X' ∈ (Mark.fitted row col room text).stamp.text.toList) :
    (Mark.fitted row col room text).isCut = true := by
  unfold Mark.fitted at h ⊢
  split
  · next hfits =>
    rw [if_pos hfits] at h
    exact absurd h htext
  · rfl

/-- Only a cut has a cross in it. -/
theorem isCut_of_cross (hm : m ∈ marks evaluated overflowed level col e)
    (h : 'X' ∈ m.stamp.text.toList) : m.isCut = true := by
  have hlabel : ∀ e : Expr, 'X' ∉ e.label.toList := not_mem_label (by decide) (by decide)
  have hcaption := @not_mem_caption 'X' (by decide) (by decide)
  induction e generalizing level col with
  | literal v =>
    obtain rfl := List.mem_singleton.1 hm
    exact isCut_fitted_of_cross (hlabel _) h
  | binary op left right result ihl ihr =>
    rw [marks_binary, List.mem_append, List.mem_cons] at hm
    rcases hm with (rfl | hm) | hm
    · exact isCut_fitted_of_cross (hlabel _) h
    · unfold captionMarks at hm
      split at hm
      · obtain rfl := List.mem_singleton.1 hm
        exact isCut_fitted_of_cross (hcaption _ _) h
      · cases hm
    · unfold belowMarks at hm
      split at hm
      · simp only [barMarks, List.mem_append, List.mem_cons, List.not_mem_nil, or_false] at hm
        rcases hm with ((rfl | rfl) | rfl | hm) | rfl | hm
        · simp [Mark.stamp] at h
        · simp [Mark.stamp] at h
        · simp [Mark.stamp] at h
        · exact ihl hm
        · simp [Mark.stamp] at h
        · exact ihr hm
      · simp only [cutOperandMarks, List.mem_append, List.mem_cons, List.not_mem_nil, or_false,
          or_self] at hm
        rcases hm with rfl | rfl
        · simp [Mark.stamp] at h
        · rfl

/-! ### Whole drawings -/

theorem ink?_eq_none_or {stamps : List Stamp}
    (h : ∀ s ∈ stamps, s.at? row col = some ch ∨ s.at? row col = none) :
    ink? stamps row col = some ch ∨ ink? stamps row col = none := by
  cases hink : ink? stamps row col with
  | none => exact .inr rfl
  | some found =>
    obtain ⟨s, hs, hfound⟩ := exists_mem_of_ink? hink
    rcases h s hs with hch | hnone
    · exact .inl (hfound.symm.trans hch)
    · exact absurd (hfound.symm.trans hnone) (Option.some_ne_none found)

variable {earlier later : List Mark}

/-- A cut is on the canvas, nothing later stamps over it, and the drawing shows it. -/
theorem cut_kept (h : marks evaluated overflowed 0 rootCol e = earlier ++ .cut row col :: later) :
    (row < 16 ∧ col < 80) ∧ glyphIn? (ofExpr evaluated overflowed e).rows row col = some 'X' ∧
      ∀ m ∈ later, m = .cut row col ∨ m.stamp.at? row col = none := by
  have hroot : rootCol = 0 + firstCol 0 := rfl
  have hcross : (Mark.cut row col).stamp.at? row col = some 'X' :=
    Stamp.at?_eq_some_iff.2 ⟨rfl, Nat.le_refl _, by simp [Mark.stamp]⟩
  have hpairwise := @pairwise_spares_marks evaluated overflowed 0 0 e (by decide)
  rw [← hroot, h] at hpairwise
  have hspared : ∀ m ∈ later, m = .cut row col ∨ m.stamp.at? row col = none := fun m hm =>
    List.rel_of_pairwise_cons (List.pairwise_append.1 hpairwise).2.1 hm row col rfl
  have hlater : ink? (later.map Mark.stamp) row col = some 'X' ∨
      ink? (later.map Mark.stamp) row col = none := by
    refine ink?_eq_none_or fun s hs => ?_
    obtain ⟨m, hm, rfl⟩ := List.mem_map.1 hs
    rcases hspared m hm with rfl | hnone
    · exact .inl hcross
    · exact .inr hnone
  have hink : ink? ((marks evaluated overflowed 0 rootCol e).map Mark.stamp) row col =
      some 'X' := by
    rw [h, List.map_append, List.map_cons, ink?_append, ink?_cons, hcross]
    rcases hlater with hsome | hnone
    · rw [hsome]
      rfl
    · rw [hnone]
      rfl
  rw [hroot, @draws_marks evaluated overflowed 0 0 e (by decide)] at hink
  exact ⟨hink.on_canvas, glyphIn?_rows_eq_some_iff.2 (.inl hink), hspared⟩

/-- A cross that a drawing shows is that of a cut. -/
theorem exists_cut_of_cross
    (h : glyphIn? (ofExpr evaluated overflowed e).rows row col = some 'X') :
    ∃ m ∈ marks evaluated overflowed 0 rootCol e, m.isCut = true := by
  have hroot : rootCol = 0 + firstCol 0 := rfl
  rcases glyphIn?_rows_eq_some_iff.1 h with hshown | ⟨-, hspace, -⟩
  · have hink := (@draws_marks evaluated overflowed 0 0 e (by decide) row col 'X').2 hshown
    obtain ⟨s, hs, hcross⟩ := exists_mem_of_ink? hink
    obtain ⟨m, hm, rfl⟩ := List.mem_map.1 hs
    obtain ⟨-, -, hget⟩ := Stamp.at?_eq_some_iff.1 hcross
    exact ⟨m, hm, isCut_of_cross hm (List.mem_of_getElem? hget)⟩
  · exact absurd hspace (by decide)

theorem complete_iff_forall_not_cross :
    (ofExpr evaluated overflowed e).complete = true ↔
      ∀ line ∈ (ofExpr evaluated overflowed e).rows, 'X' ∉ line.toList := by
  rw [complete_iff_forall_not_isCut]
  constructor
  · intro h line hline hcross
    obtain ⟨row, col, hglyph⟩ := mem_line_iff.1 ⟨line, hline, hcross⟩
    obtain ⟨m, hm, hcut⟩ := exists_cut_of_cross hglyph
    simp [h m hm] at hcut
  · intro h m hm
    cases m with
    | text s => rfl
    | cut row col =>
      obtain ⟨earlier, later, hmarks⟩ := List.append_of_mem hm
      obtain ⟨line, hline, hcross⟩ := mem_line_iff.2 ⟨row, col, (cut_kept hmarks).2.1⟩
      exact absurd hcross (h line hline)

theorem complete_iff_depth_and_fits :
    (ofExpr evaluated overflowed e).complete = true ↔
      e.depth ≤ 5 ∧ ∀ s ∈ places 0 39 e, ∀ i ∈ s.inscriptions evaluated overflowed, i.Fits := by
  rw [complete_iff, Expr.depth, @Nat.add_le_add_iff_right e.nesting 4 1]
  refine and_congr_right fun hnesting => ?_
  rw [AllFit, places_eq_sites (by omega)]

/-- A drawing is complete exactly when it shows no cross, and exactly when the tree has no more than
five levels and every text has its room. Every cut is on the canvas, is shown, and is stamped over
by nothing but the same cut again. -/
theorem complete_iff_uncrossed (evaluated overflowed : Bool) (e : Expr) :
    ((ofExpr evaluated overflowed e).complete = true ↔
        ∀ line ∈ (ofExpr evaluated overflowed e).rows, 'X' ∉ line.toList) ∧
      ((ofExpr evaluated overflowed e).complete = true ↔
        e.depth ≤ 5 ∧ ∀ s ∈ places 0 39 e, ∀ i ∈ s.inscriptions evaluated overflowed, i.Fits) ∧
      ∀ earlier row col later,
        marks evaluated overflowed 0 rootCol e = earlier ++ .cut row col :: later →
        (row < 16 ∧ col < 80) ∧
          glyphIn? (ofExpr evaluated overflowed e).rows row col = some 'X' ∧
          ∀ m ∈ later, m = .cut row col ∨ m.stamp.at? row col = none :=
  ⟨complete_iff_forall_not_cross, complete_iff_depth_and_fits, fun _ _ _ _ h => cut_kept h⟩

/-- Five operators in one another on the left: both operands of the last one are cut to one cross,
which the other operands leave alone. -/
theorem complete_iff_uncrossed_of_chain :
    let chain : Expr := .node .add (.node .sub (.node .mul (.node .div (.node .pow (.literal 6)
      (.literal 5)) (.literal 4)) (.literal 3)) (.literal 2)) (.literal 1)
    let ms := marks false false 0 rootCol chain
    ms = ms.take 18 ++ .cut 15 1 :: ms.drop 19 ∧
      ((15 < 16 ∧ 1 < 80) ∧ glyphIn? (ofExpr false false chain).rows 15 1 = some 'X' ∧
        ∀ m ∈ ms.drop 19, m = .cut 15 1 ∨ m.stamp.at? 15 1 = none) := by
  intro chain ms
  have hcut : ms = ms.take 18 ++ .cut 15 1 :: ms.drop 19 := by decide
  exact ⟨hcut, (complete_iff_uncrossed false false chain).2.2 _ 15 1 _ hcut⟩

end ArithTree.Drawing
