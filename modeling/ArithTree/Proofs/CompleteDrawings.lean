import ArithTree.Proofs.DrawnCells
import ArithTree.Proofs.WordTree

/-! Complete drawings. A drawing is complete when no operator stands on its deepest level and every
text has its room. Such a drawing can be read back from the top: a node's label stands in its column
up to the first blank, a numeral is no operator, the caption follows two columns on, and each
operand is drawn in its own half of the strip. Main statement: trees with the same complete drawing
are the same but for kept results, and in an evaluated drawing those are the same too. -/

namespace ArithTree.Drawing

variable {evaluated overflowed : Bool} {level col start row col' : Nat} {ch : Char}
  {op : Operator} {left right e e' : Expr} {result : Int32} {s : Site}

/-! ### What a complete drawing needs -/

theorem Inscription.isCut_mark (row : Nat) (i : Inscription) :
    (i.mark row).isCut = false ↔ i.Fits := by
  rw [mark_eq]
  split
  · next h => simp [Mark.isCut, h]
  · next h => simp [Mark.isCut, h]

/-- Every text of every site has its room. -/
def AllFit (evaluated overflowed : Bool) (level col : Nat) (e : Expr) : Prop :=
  ∀ s ∈ sites level col e, ∀ i ∈ s.inscriptions evaluated overflowed, i.Fits

theorem allFit_literal {v : Int32} :
    AllFit evaluated overflowed level col (.literal v) ↔
      ∀ i ∈ Site.inscriptions evaluated overflowed ⟨level, col, .literal v⟩, i.Fits := by
  simp [AllFit, sites]

theorem allFit_binary :
    AllFit evaluated overflowed level col (.binary op left right result) ↔
      (∀ i ∈ Site.inscriptions evaluated overflowed ⟨level, col, .binary op left right result⟩,
        i.Fits) ∧
      (level < 4 → AllFit evaluated overflowed (level + 1) (leftOf level col) left ∧
        AllFit evaluated overflowed (level + 1) (rightOf level col) right) := by
  simp only [AllFit, mem_sites_binary, or_imp, forall_and, forall_eq, and_imp]
  grind

theorem forall_not_isCut_inscriptions (row : Nat) (is : List Inscription) :
    (∀ m ∈ is.map (Inscription.mark row), m.isCut = false) ↔ ∀ i ∈ is, i.Fits := by
  simp only [List.forall_mem_map, Inscription.isCut_mark]

/-- Nothing of a tree is cut exactly when no operator stands on the deepest level and all texts
fit. -/
theorem forall_not_isCut_marks_iff (hlevel : level ≤ 4) :
    (∀ m ∈ marks evaluated overflowed level col e, m.isCut = false) ↔
      level + e.nesting ≤ 4 ∧ AllFit evaluated overflowed level col e := by
  induction e generalizing level col with
  | literal v =>
    rw [marks_inscriptions_literal hlevel, forall_not_isCut_inscriptions, allFit_literal]
    exact (and_iff_right hlevel).symm
  | binary op left right result ihl ihr =>
    rw [marks_inscriptions_binary hlevel, List.forall_mem_append, forall_not_isCut_inscriptions,
      allFit_binary]
    rcases Nat.lt_or_eq_of_le hlevel with hdeep | rfl
    · have hnext : level + 1 ≤ 4 := hdeep
      have hbelow : (∀ m ∈ belowMarks evaluated overflowed level col left right,
          m.isCut = false) ↔
          (∀ m ∈ marks evaluated overflowed (level + 1) (leftOf level col) left,
            m.isCut = false) ∧
          ∀ m ∈ marks evaluated overflowed (level + 1) (rightOf level col) right,
            m.isCut = false := by
        simp [belowMarks, show level < deepestLevel from hdeep, barMarks, Mark.isCut,
          leftCol_succ, rightCol_succ, or_imp, forall_and]
      rw [hbelow, ihl hnext, ihr hnext, Expr.nesting]
      grind
    · have hcut : ¬∀ m ∈ belowMarks evaluated overflowed 4 col left right, m.isCut = false := by
        simp [belowMarks, deepestLevel, cutOperandMarks, Mark.isCut]
      have hnesting : ¬4 + (Expr.binary op left right result).nesting ≤ 4 := by
        simp only [Expr.nesting]
        omega
      simp only [hcut, hnesting, and_false, false_and]

theorem complete_iff_forall_not_isCut :
    (ofExpr evaluated overflowed e).complete = true ↔
      ∀ m ∈ marks evaluated overflowed 0 rootCol e, m.isCut = false := by
  simp [ofExpr]

theorem complete_iff :
    (ofExpr evaluated overflowed e).complete = true ↔
      e.nesting ≤ 4 ∧ AllFit evaluated overflowed 0 39 e := by
  have hroot : rootCol = 39 := rfl
  rw [complete_iff_forall_not_isCut, hroot, forall_not_isCut_marks_iff (by decide), Nat.zero_add]

/-! ### Reading a drawing back -/

theorem AllFit.inscriptions (h : AllFit evaluated overflowed level col e) :
    ∀ i ∈ Site.inscriptions evaluated overflowed ⟨level, col, e⟩, i.Fits := by
  cases e with
  | literal v => exact allFit_literal.1 h
  | binary op left right result => exact (allFit_binary.1 h).1

theorem Inscription.shows_of_fits {i : Inscription} (h : i.Fits) :
    i.Shows col ch ↔ i.col ≤ col ∧ i.text.toList[col - i.col]? = some ch := by
  rw [Shows, if_pos h]

/-- The label row of a tree's root is for the root alone. -/
theorem shown_labelRow :
    Shown evaluated overflowed level (start + firstCol level) e (3 * level + 1) col' ch ↔
      ∃ i ∈ Site.inscriptions evaluated overflowed ⟨level, start + firstCol level, e⟩,
        i.Shows col' ch := by
  have hown : Site.Shows evaluated overflowed ⟨level, start + firstCol level, e⟩ (3 * level + 1)
      col' ch ↔ ∃ i ∈ Site.inscriptions evaluated overflowed ⟨level, start + firstCol level, e⟩,
        i.Shows col' ch := by
    simp [Site.Shows, Site.ShowsText, Site.ShowsBar, Site.ShowsEnds]
  cases e with
  | literal v => rw [shown_literal, hown]
  | binary op left right result =>
    rw [shown_binary, hown, or_iff_left]
    rintro ⟨hdeep, h⟩
    have hnext : level + 1 ≤ 4 := hdeep
    rw [leftOf_firstCol hdeep, rightOf_firstCol hdeep] at h
    rcases h with h | h
    · exact absurd (h.bounds hnext).1.1 (by simp)
    · exact absurd (h.bounds hnext).1.1 (by simp)

theorem shown_label_literal {v : Int32} {k : Nat}
    (h : AllFit evaluated overflowed level (start + firstCol level) (.literal v)) :
    Shown evaluated overflowed level (start + firstCol level) (.literal v) (3 * level + 1)
        (start + firstCol level + k) ch ↔ (Numeral.text v).toList[k]? = some ch := by
  have hfits := h.inscriptions
  simp only [Site.inscriptions, List.forall_mem_singleton] at hfits
  rw [shown_labelRow]
  simp only [Site.inscriptions, List.mem_singleton, exists_eq_left]
  rw [Inscription.shows_of_fits hfits]
  simp [Expr.label]

/-- The label, then a free column, then the caption if there is one. -/
theorem shown_label_binary {k : Nat}
    (h : AllFit evaluated overflowed level (start + firstCol level)
      (.binary op left right result)) :
    Shown evaluated overflowed level (start + firstCol level) (.binary op left right result)
        (3 * level + 1) (start + firstCol level + k) ch ↔
      op.symbol.toList[k]? = some ch ∨
        evaluated = true ∧ 2 ≤ k ∧ (caption overflowed result).toList[k - 2]? = some ch := by
  have hfits := h.inscriptions
  rw [shown_labelRow]
  simp only [Site.inscriptions, ← caption_eq, List.forall_mem_cons] at hfits
  obtain ⟨hlabel, hcaption⟩ := hfits
  simp only [Site.inscriptions, ← caption_eq, List.mem_cons, or_and_right, exists_or,
    exists_eq_left]
  rw [Inscription.shows_of_fits hlabel]
  cases evaluated with
  | false => simp [Expr.label]
  | true =>
    simp only [if_true, List.mem_singleton, forall_eq, exists_eq_left] at hcaption ⊢
    rw [Inscription.shows_of_fits hcaption]
    simp [Expr.label, Nat.add_assoc, Nat.add_sub_add_left]

theorem not_inStrip_right (hstrip : InStrip (level + 1) start row col') :
    ¬InStrip (level + 1) (start + spread (level + 1)) row col' := by
  rintro ⟨-, hafter, -⟩
  obtain ⟨-, -, hbefore⟩ := hstrip
  omega

/-- Below the three rows of an operator only its operands show anything. -/
theorem shown_below (hdeep : level < 4) (hrow : 3 * level + 3 < row) :
    Shown evaluated overflowed level (start + firstCol level) (.binary op left right result)
        row col' ch ↔
      Shown evaluated overflowed (level + 1) (start + firstCol (level + 1)) left row col' ch ∨
        Shown evaluated overflowed (level + 1) (start + spread (level + 1) + firstCol (level + 1))
          right row col' ch := by
  rw [shown_binary, leftOf_firstCol hdeep, rightOf_firstCol hdeep, and_iff_right hdeep,
    or_iff_right]
  intro hown
  exact absurd (Site.Shows.bounds (Nat.le_of_lt hdeep) rfl hown).2.1 (Nat.not_le_of_lt hrow)

/-- The left operand is what is shown in its own strip. -/
theorem shown_left_iff (hdeep : level < 4) :
    Shown evaluated overflowed (level + 1) (start + firstCol (level + 1)) left row col' ch ↔
      Shown evaluated overflowed level (start + firstCol level) (.binary op left right result)
        row col' ch ∧ InStrip (level + 1) start row col' := by
  have hnext : level + 1 ≤ 4 := hdeep
  constructor
  · intro h
    have hstrip := (h.bounds hnext).1
    exact ⟨(shown_below hdeep hstrip.1).2 (.inl h), hstrip⟩
  · rintro ⟨h, hstrip⟩
    exact ((shown_below hdeep hstrip.1).1 h).resolve_right fun hright =>
      not_inStrip_right hstrip (hright.bounds hnext).1

theorem shown_right_iff (hdeep : level < 4) :
    Shown evaluated overflowed (level + 1) (start + spread (level + 1) + firstCol (level + 1))
        right row col' ch ↔
      Shown evaluated overflowed level (start + firstCol level) (.binary op left right result)
        row col' ch ∧ InStrip (level + 1) (start + spread (level + 1)) row col' := by
  have hnext : level + 1 ≤ 4 := hdeep
  constructor
  · intro h
    have hstrip := (h.bounds hnext).1
    exact ⟨(shown_below hdeep hstrip.1).2 (.inr h), hstrip⟩
  · rintro ⟨h, hstrip⟩
    exact ((shown_below hdeep hstrip.1).1 h).resolve_left fun hleft =>
      not_inStrip_right (hleft.bounds hnext).1 hstrip

/-! ### Labels and captions -/

theorem caption_injective {result result' : Int32}
    (h : caption overflowed result = caption overflowed result') : result = result' := by
  have hbig : ∀ {v : Int32}, "(BIG)" ≠ "(" ++ Numeral.text v ++ ")" := by
    intro v hv
    have hletter : 'B' ∈ (Numeral.text v).toList := by
      have hmem : 'B' ∈ ("(" ++ Numeral.text v ++ ")").toList := by simp [← hv]
      simpa using hmem
    exact Numeral.not_mem_text (by decide) (by decide) v hletter
  unfold caption at h
  split at h
  · next hfirst =>
    split at h
    · next hsecond =>
      simp only [Bool.and_eq_true, beq_iff_eq] at hfirst hsecond
      rw [hfirst.2, hsecond.2]
    · exact absurd h hbig
  · split at h
    · exact absurd h.symm hbig
    · rw [String.append_left_inj, String.append_right_inj] at h
      exact Numeral.text_injective h

/-- A numeral is longer than an operator, or another character. -/
theorem text_ne_symbol (v : Int32) (op : Operator) : Numeral.text v ≠ op.symbol := by
  intro h
  have hsymbol := Numeral.ofSymbol?_text v
  rw [h, Operator.ofSymbol?_symbol] at hsymbol
  exact Option.some_ne_none op hsymbol

/-- A literal and an operator never show the same. -/
theorem not_shown_iff_of_literal {v : Int32}
    (hfit : AllFit evaluated overflowed level (start + firstCol level) (.literal v))
    (hfit' : AllFit evaluated overflowed level (start + firstCol level)
      (.binary op left right result)) :
    ¬∀ row col ch,
      Shown evaluated overflowed level (start + firstCol level) (.literal v) row col ch ↔
        Shown evaluated overflowed level (start + firstCol level) (.binary op left right result)
          row col ch := by
  intro h
  have hlabel := fun k ch => (shown_label_literal hfit).symm.trans
    ((h (3 * level + 1) (start + firstCol level + k) ch).trans (shown_label_binary hfit'))
  have hfirst : (Numeral.text v).toList[0]? = some op.glyph :=
    (hlabel 0 op.glyph).2 (.inl (by simp))
  have hsecond : (Numeral.text v).toList[1]? = none := by
    rw [Option.eq_none_iff_forall_ne_some]
    intro ch hch
    simpa using (hlabel 1 ch).1 hch
  have htext : (Numeral.text v).toList = op.symbol.toList := by
    rw [Operator.toList_symbol]
    rcases hcs : (Numeral.text v).toList with _ | ⟨c, _ | ⟨d, cs⟩⟩
    · simp [hcs] at hfirst
    · simpa [hcs] using hfirst
    · simp [hcs] at hsecond
  exact text_ne_symbol v op (String.toList_inj.1 htext)

/-- Literals that show the same are the same. -/
theorem eq_of_shown_iff_of_literal {v w : Int32}
    (hfit : AllFit evaluated overflowed level (start + firstCol level) (.literal v))
    (hfit' : AllFit evaluated overflowed level (start + firstCol level) (.literal w))
    (h : ∀ row col ch,
      Shown evaluated overflowed level (start + firstCol level) (.literal v) row col ch ↔
        Shown evaluated overflowed level (start + firstCol level) (.literal w) row col ch) :
    v = w := by
  refine Numeral.text_injective (String.toList_inj.1 (List.ext_getElem? fun k => ?_))
  refine Option.ext fun ch => ?_
  rw [← shown_label_literal hfit, ← shown_label_literal hfit']
  exact h _ _ _

/-- Operators that show the same are the same, and so are the results that they show. -/
theorem eq_of_shown_iff_of_binary {op' : Operator} {left' right' : Expr} {result' : Int32}
    (hfit : AllFit evaluated overflowed level (start + firstCol level)
      (.binary op left right result))
    (hfit' : AllFit evaluated overflowed level (start + firstCol level)
      (.binary op' left' right' result'))
    (h : ∀ row col ch,
      Shown evaluated overflowed level (start + firstCol level) (.binary op left right result)
          row col ch ↔
        Shown evaluated overflowed level (start + firstCol level)
          (.binary op' left' right' result') row col ch) :
    op = op' ∧ (evaluated = true → result = result') := by
  have hlabel := fun k ch => (shown_label_binary hfit).symm.trans
    ((h (3 * level + 1) (start + firstCol level + k) ch).trans (shown_label_binary hfit'))
  constructor
  · have hfirst := (hlabel 0 op.glyph).1 (.inl (by simp))
    exact (Operator.glyph_injective (by simpa using hfirst)).symm
  · intro hevaluated
    refine @caption_injective overflowed _ _ (String.toList_inj.1 (List.ext_getElem? fun k => ?_))
    refine Option.ext fun ch => ?_
    simpa [hevaluated] using hlabel (k + 2) ch

/-! ### Whole trees -/

/-- Trees that fit and show the same are the same, from the label of the root down. -/
theorem eq_of_shown_iff (hdepth : level + e.nesting ≤ 4) (hdepth' : level + e'.nesting ≤ 4)
    (hfit : AllFit evaluated overflowed level (start + firstCol level) e)
    (hfit' : AllFit evaluated overflowed level (start + firstCol level) e')
    (h : ∀ row col ch, Shown evaluated overflowed level (start + firstCol level) e row col ch ↔
      Shown evaluated overflowed level (start + firstCol level) e' row col ch) :
    e.cleared = e'.cleared ∧ (evaluated = true → e = e') := by
  induction e generalizing level start e' with
  | literal v =>
    cases e' with
    | literal w =>
      rw [eq_of_shown_iff_of_literal hfit hfit' h]
      exact ⟨rfl, fun _ => rfl⟩
    | binary op left right result => exact absurd h (not_shown_iff_of_literal hfit hfit')
  | binary op left right result ihl ihr =>
    cases e' with
    | literal w =>
      exact absurd (fun row col ch => (h row col ch).symm) (not_shown_iff_of_literal hfit' hfit)
    | binary op' left' right' result' =>
      obtain ⟨rfl, hresult⟩ := eq_of_shown_iff_of_binary hfit hfit' h
      rw [Expr.nesting] at hdepth hdepth'
      have hdeep : level < 4 := by omega
      obtain ⟨hfitl, hfitr⟩ := (allFit_binary.1 hfit).2 hdeep
      obtain ⟨hfitl', hfitr'⟩ := (allFit_binary.1 hfit').2 hdeep
      rw [leftOf_firstCol hdeep] at hfitl hfitl'
      rw [rightOf_firstCol hdeep] at hfitr hfitr'
      -- what is shown in the strip of an operand is all that the operand shows
      obtain ⟨hleft, hleft'⟩ := ihl (by omega) (by omega) hfitl hfitl' fun row col ch => by
        rw [shown_left_iff hdeep, shown_left_iff hdeep, h]
      obtain ⟨hright, hright'⟩ := ihr (by omega) (by omega) hfitr hfitr' fun row col ch => by
        rw [shown_right_iff hdeep, shown_right_iff hdeep, h]
      refine ⟨by simp only [Expr.cleared, hleft, hright], fun hevaluated => ?_⟩
      rw [hleft' hevaluated, hright' hevaluated, hresult hevaluated]

/-! ### Rows -/

theorem not_mem_label (hdigit : ch.isDigit = false) (hsymbol : ch ∉ ['+', '-', '*', '/', '^', '%'])
    (e : Expr) : ch ∉ e.label.toList := by
  cases e with
  | literal v =>
    refine Numeral.not_mem_text hdigit ?_ v
    rintro rfl
    exact hsymbol (by decide)
  | binary op left right result =>
    rw [Expr.label, Operator.toList_symbol, List.mem_singleton]
    rintro rfl
    exact hsymbol (by cases op <;> decide)

theorem not_mem_caption (hdigit : ch.isDigit = false)
    (hother : ch ∉ ['(', ')', '-', 'B', 'I', 'G']) (overflowed : Bool) (result : Int32) :
    ch ∉ (caption overflowed result).toList := by
  simp only [List.mem_cons, List.not_mem_nil, or_false, not_or] at hother
  obtain ⟨hopening, hclosing, hminus, hb, hi, hg⟩ := hother
  unfold caption
  split
  · simp [hopening, hclosing, hb, hi, hg]
  · simp [hopening, hclosing, Numeral.not_mem_text hdigit hminus]

theorem Site.space_not_mem_inscriptions {i : Inscription}
    (h : i ∈ s.inscriptions evaluated overflowed) : ' ' ∉ i.text.toList := by
  unfold inscriptions at h
  rw [List.mem_cons] at h
  rcases h with rfl | h
  · exact not_mem_label (by decide) (by decide) s.node
  · split at h
    · cases h
    · split at h
      · obtain rfl := List.mem_singleton.1 h
        simpa only [caption_eq] using not_mem_caption (by decide) (by decide) overflowed _
      · cases h

/-- Nothing that is shown is a blank. -/
theorem Shown.ne_space (h : Shown evaluated overflowed level col e row col' ch) : ch ≠ ' ' := by
  obtain ⟨s, -, ⟨-, i, hi, hshows⟩ | ⟨-, -, hbar⟩ | ⟨-, -, hends⟩⟩ := h
  · unfold Inscription.Shows at hshows
    split at hshows
    · rintro rfl
      exact Site.space_not_mem_inscriptions hi (List.mem_of_getElem? hshows.2)
    · rw [hshows.2]
      decide
  · rcases hbar with ⟨-, rfl⟩ | ⟨-, -, -, -, rfl⟩
    · decide
    · decide
  · split at hends
    · rw [hends.2]
      decide
    · rw [hends.2]
      decide

theorem shown_of_rows_eq
    (h : (ofExpr evaluated overflowed e).rows = (ofExpr evaluated overflowed e').rows)
    (hshown : Shown evaluated overflowed 0 39 e row col ch) :
    Shown evaluated overflowed 0 39 e' row col ch := by
  have hglyph := glyphIn?_rows_eq_some_iff.2 (.inl hshown)
  rw [h] at hglyph
  rcases glyphIn?_rows_eq_some_iff.1 hglyph with hshown' | ⟨-, hspace, -⟩
  · exact hshown'
  · exact absurd hspace hshown.ne_space

/-- A complete drawing loses nothing: trees with the same one have the same shape, operators and
literals, and if kept results are drawn they are the same as well. -/
theorem eq_of_rows_eq (hcomplete : (ofExpr evaluated overflowed e).complete = true)
    (hcomplete' : (ofExpr evaluated overflowed e').complete = true)
    (hrows : (ofExpr evaluated overflowed e).rows = (ofExpr evaluated overflowed e').rows) :
    e.cleared = e'.cleared ∧ (evaluated = true → e = e') := by
  have hroot : 39 = 0 + firstCol 0 := rfl
  obtain ⟨hdepth, hfit⟩ := complete_iff.1 hcomplete
  obtain ⟨hdepth', hfit'⟩ := complete_iff.1 hcomplete'
  rw [hroot] at hfit hfit'
  refine eq_of_shown_iff (by omega) (by omega) hfit hfit' fun row col ch => ?_
  rw [← hroot]
  exact ⟨shown_of_rows_eq hrows, shown_of_rows_eq hrows.symm⟩

/-- Before an evaluation a kept result is not drawn, and all the rest can be read back. -/
theorem eq_of_rows_eq_of_kept_result :
    let before : Expr := .node .sub (.literal (-5)) (.literal 2147483647)
    let after : Expr := .binary .sub (.literal (-5)) (.literal 2147483647) (-2147483648)
    ((ofExpr false false before).complete = true ∧ (ofExpr false false after).complete = true ∧
        (ofExpr false false before).rows = (ofExpr false false after).rows) ∧
      before.cleared = after.cleared := by
  intro before after
  have hcomplete : (ofExpr false false before).complete = true := by decide
  have hcomplete' : (ofExpr false false after).complete = true := by decide
  have hrows : (ofExpr false false before).rows = (ofExpr false false after).rows := rfl
  exact ⟨⟨hcomplete, hcomplete', hrows⟩, (eq_of_rows_eq hcomplete hcomplete' hrows).1⟩

end ArithTree.Drawing
