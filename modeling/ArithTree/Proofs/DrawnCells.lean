import Mathlib.Algebra.Group.Nat.Defs
import ArithTree.Proofs.DrawnRoot
import ArithTree.Proofs.Ink

/-! Every cell of a drawing. The nodes of the first five levels have their places: the root in the
middle of the top, operands half of their level's spread to the left and to the right. A node shows
its label and its caption, or a cross where a text has no room, and an operator a bar from operand
to operand; a site is a node in its place, and `Site.Shows` is this picture in plain numbers. A
subtree stays inside a strip of its level's spread, and the strips of two operands never meet, so no
stamp of one node touches a cell of another. Main statement: a cell holds what a site shows there,
and all other cells are blank. -/

namespace ArithTree.Drawing

/-! ### Sites -/

/-- The column of a left operand: half of the spread of its level, rounded up, left of the operator
on the given level. -/
def leftOf (level col : Nat) : Nat := col - (80 / 2 ^ (level + 1) + 1) / 2

/-- The column of a right operand: half of the spread of its level, rounded down, to the right. -/
def rightOf (level col : Nat) : Nat := col + 80 / 2 ^ (level + 1) / 2

/-- A node in its place. -/
structure Site where
  level : Nat
  col : Nat
  node : Expr

/-- The sites of a tree that is put at a column of a level; nothing stands below level 4. -/
def sites (level col : Nat) : Expr → List Site
  | .literal v => [⟨level, col, .literal v⟩]
  | .binary op left right result =>
    ⟨level, col, .binary op left right result⟩ ::
      if level < 4 then
        sites (level + 1) (leftOf level col) left ++ sites (level + 1) (rightOf level col) right
      else []

/-- A text from a column on, and the most characters that it may have. -/
structure Inscription where
  col : Nat
  most : Nat
  text : String

namespace Inscription

def Fits (i : Inscription) : Prop := i.col + i.text.length ≤ 80 ∧ i.text.length ≤ i.most

instance (i : Inscription) : Decidable i.Fits :=
  inferInstanceAs (Decidable (i.col + i.text.length ≤ 80 ∧ i.text.length ≤ i.most))

/-- The text where it fits, and otherwise a cross in its first column. -/
def Shows (i : Inscription) (col : Nat) (ch : Char) : Prop :=
  if i.Fits then i.col ≤ col ∧ i.text.toList[col - i.col]? = some ch else col = i.col ∧ ch = 'X'

end Inscription

namespace Site

/-- The label, and two columns on the caption of an evaluated operator. -/
def inscriptions (evaluated overflowed : Bool) (s : Site) : List Inscription :=
  ⟨s.col, 80 / 2 ^ s.level - 1, s.node.label⟩ ::
    match s.node with
    | .literal _ => []
    | .binary _ _ _ result =>
      if evaluated then
        [⟨s.col + 2, 80 / 2 ^ s.level - 3,
          if overflowed ∧ result = 2147483647 then "(BIG)" else "(" ++ result.toInt.repr ++ ")"⟩]
      else []

def ShowsText (evaluated overflowed : Bool) (s : Site) (row col : Nat) (ch : Char) : Prop :=
  row = 3 * s.level + 1 ∧ ∃ i ∈ s.inscriptions evaluated overflowed, i.Shows col ch

/-- The post below an operator and the bar on both of its sides. -/
def ShowsBar (s : Site) (row col : Nat) (ch : Char) : Prop :=
  s.node.isLeaf = false ∧ row = 3 * s.level + 2 ∧
    (col = s.col ∧ ch = '|' ∨
      s.level < 4 ∧ leftOf s.level s.col < col ∧ col < rightOf s.level s.col ∧ col ≠ s.col ∧
        ch = '_')

/-- The posts on the two operands, or the cross for both of them below the deepest level. -/
def ShowsEnds (s : Site) (row col : Nat) (ch : Char) : Prop :=
  s.node.isLeaf = false ∧ row = 3 * s.level + 3 ∧
    if s.level < 4 then (col = leftOf s.level s.col ∨ col = rightOf s.level s.col) ∧ ch = '|'
    else col = s.col ∧ ch = 'X'

/-- A site shows a character in a cell. -/
def Shows (evaluated overflowed : Bool) (s : Site) (row col : Nat) (ch : Char) : Prop :=
  s.ShowsText evaluated overflowed row col ch ∨ s.ShowsBar row col ch ∨ s.ShowsEnds row col ch

end Site

/-- Some site of the tree that is put at a column of a level shows a character in a cell. -/
def Shown (evaluated overflowed : Bool) (level col : Nat) (e : Expr) (row col' : Nat) (ch : Char) :
    Prop :=
  ∃ s ∈ sites level col e, s.Shows evaluated overflowed row col' ch

/-! ### Strips -/

theorem spread_eq (level : Nat) : spread level = 80 / 2 ^ level := Nat.shiftRight_eq_div_pow _ _

/-- The column of the leftmost node that a level can have. -/
def firstCol (level : Nat) : Nat := spread level / 2 - 1

theorem spread_succ {level : Nat} (h : level < 4) : spread level = 2 * spread (level + 1) := by
  revert level
  decide

theorem firstCol_succ {level : Nat} (h : level < 4) :
    firstCol level = firstCol (level + 1) + (spread (level + 1) + 1) / 2 := by
  revert level
  decide

theorem five_le_spread {level : Nat} (h : level ≤ 4) : 5 ≤ spread level := by
  have hlevel : level < 5 := Nat.lt_succ_of_le h
  revert level
  decide

/-- The cells that a subtree may use. In every row its strip is as wide as the spread of its level;
it starts as many columns to the right as the first node of the level that the row is for. -/
def InStrip (level start row col : Nat) : Prop :=
  3 * level + 1 ≤ row ∧ start + firstCol (min 4 ((row + 1) / 3)) ≤ col ∧
    col < start + firstCol (min 4 ((row + 1) / 3)) + spread level

theorem leftCol_succ (level col : Nat) : leftCol (level + 1) col = leftOf level col := by
  rw [leftCol, leftOf, spread_eq]

theorem rightCol_succ (level col : Nat) : rightCol (level + 1) col = rightOf level col := by
  rw [rightCol, rightOf, spread_eq]

theorem leftOf_firstCol {level : Nat} (h : level < 4) (start : Nat) :
    leftOf level (start + firstCol level) = start + firstCol (level + 1) := by
  rw [leftOf, ← spread_eq, firstCol_succ h]
  omega

theorem rightOf_firstCol {level : Nat} (h : level < 4) (start : Nat) :
    rightOf level (start + firstCol level) =
      start + spread (level + 1) + firstCol (level + 1) := by
  rw [rightOf, ← spread_eq, firstCol_succ h]
  omega

section Trees

variable {evaluated overflowed : Bool} {level col start row col' : Nat} {ch : Char}
  {op : Operator} {left right e : Expr} {result : Int32} {s : Site}

theorem mem_sites_binary :
    s ∈ sites level col (.binary op left right result) ↔
      s = ⟨level, col, .binary op left right result⟩ ∨
        level < 4 ∧ (s ∈ sites (level + 1) (leftOf level col) left ∨
          s ∈ sites (level + 1) (rightOf level col) right) := by
  rw [sites, List.mem_cons]
  split
  · next h => simp [h]
  · next h => simp [h]

/-- Every site stands on the first column of its own strip, which lies inside the tree's strip. -/
theorem exists_start_of_mem_sites (hlevel : level ≤ 4)
    (h : s ∈ sites level (start + firstCol level) e) :
    level ≤ s.level ∧ s.level ≤ 4 ∧ ∃ start', s.col = start' + firstCol s.level ∧
      start ≤ start' ∧ start' + spread s.level ≤ start + spread level := by
  induction e generalizing level start with
  | literal v =>
    obtain rfl := List.mem_singleton.1 h
    exact ⟨Nat.le_refl _, hlevel, start, rfl, Nat.le_refl _, Nat.le_refl _⟩
  | binary op left right result ihl ihr =>
    rcases mem_sites_binary.1 h with rfl | ⟨hdeep, h⟩
    · exact ⟨Nat.le_refl _, hlevel, start, rfl, Nat.le_refl _, Nat.le_refl _⟩
    have hnext : level + 1 ≤ 4 := hdeep
    have hspread := spread_succ hdeep
    rw [leftOf_firstCol hdeep, rightOf_firstCol hdeep] at h
    rcases h with h | h
    · obtain ⟨habove, hbelow, start', hcol, hstart, hend⟩ := ihl hnext h
      exact ⟨by omega, hbelow, start', hcol, hstart, by omega⟩
    · obtain ⟨habove, hbelow, start', hcol, hstart, hend⟩ := ihr hnext h
      exact ⟨by omega, hbelow, start', hcol, by omega, by omega⟩

/-! ### What a site shows -/

theorem Inscription.Shows.bounds {i : Inscription} (h : i.Shows col' ch) :
    i.col ≤ col' ∧ (col' = i.col ∨ col' < i.col + i.most ∧ col' < 80) := by
  unfold Shows at h
  split at h
  · next hfits =>
    obtain ⟨hle, hch⟩ := h
    obtain ⟨hlt, -⟩ := List.getElem?_eq_some_iff.1 hch
    rw [String.length_toList] at hlt
    obtain ⟨hedge, hmost⟩ := hfits
    exact ⟨hle, .inr ⟨by omega, by omega⟩⟩
  · exact ⟨Nat.le_of_eq h.1.symm, .inl h.1⟩

namespace Site

theorem bounds_of_mem_inscriptions {i : Inscription} (hlevel : s.level ≤ 4)
    (h : i ∈ s.inscriptions evaluated overflowed) :
    s.col ≤ i.col ∧ i.col ≤ s.col + 2 ∧ i.col + i.most < s.col + spread s.level := by
  have hspread := five_le_spread hlevel
  unfold inscriptions at h
  rw [← spread_eq, List.mem_cons] at h
  rcases h with rfl | h
  · exact ⟨Nat.le_refl _, Nat.le_add_right _ _, by simp only; omega⟩
  · split at h
    · cases h
    · split at h
      · obtain rfl := List.mem_singleton.1 h
        exact ⟨Nat.le_add_right _ _, Nat.le_refl _, by simp only; omega⟩
      · cases h

/-- What a site shows is in its strip, in the three rows of its level, and on the canvas if the
strip is. -/
theorem Shows.bounds (hlevel : s.level ≤ 4) (hcol : s.col = start + firstCol s.level)
    (h : s.Shows evaluated overflowed row col' ch) :
    InStrip s.level start row col' ∧ row ≤ 3 * s.level + 3 ∧
      (start + spread s.level ≤ 80 → col' < 80) := by
  have hspread := five_le_spread hlevel
  have hfirst : firstCol s.level = spread s.level / 2 - 1 := rfl
  unfold InStrip
  rcases h with ⟨rfl, i, hi, hshows⟩ | ⟨-, rfl, hbar⟩ | ⟨-, rfl, hends⟩
  · have hrow : min 4 ((3 * s.level + 1 + 1) / 3) = s.level := by omega
    obtain ⟨hleft, hright, hmost⟩ := bounds_of_mem_inscriptions hlevel hi
    have hbounds := hshows.bounds
    rw [hrow]
    omega
  · rcases Nat.lt_or_ge s.level 4 with hdeep | hdeep
    · have hrow : min 4 ((3 * s.level + 2 + 1) / 3) = s.level + 1 := by omega
      have hsucc := spread_succ hdeep
      have hfirst := firstCol_succ hdeep
      rw [hcol, leftOf_firstCol hdeep, rightOf_firstCol hdeep] at hbar
      rw [hrow]
      omega
    · have hrow : min 4 ((3 * s.level + 2 + 1) / 3) = s.level := by omega
      rw [hrow]
      omega
  · split at hends
    · next hdeep =>
      have hrow : min 4 ((3 * s.level + 3 + 1) / 3) = s.level + 1 := by omega
      have hsucc := spread_succ hdeep
      have hfirst := firstCol_succ hdeep
      rw [hcol, leftOf_firstCol hdeep, rightOf_firstCol hdeep] at hends
      rw [hrow]
      omega
    · have hrow : min 4 ((3 * s.level + 3 + 1) / 3) = s.level := by omega
      rw [hrow]
      omega

end Site

theorem shown_literal {v : Int32} :
    Shown evaluated overflowed level col (.literal v) row col' ch ↔
      Site.Shows evaluated overflowed ⟨level, col, .literal v⟩ row col' ch := by
  simp [Shown, sites]

theorem shown_binary :
    Shown evaluated overflowed level col (.binary op left right result) row col' ch ↔
      Site.Shows evaluated overflowed ⟨level, col, .binary op left right result⟩ row col' ch ∨
        level < 4 ∧ (Shown evaluated overflowed (level + 1) (leftOf level col) left row col' ch ∨
          Shown evaluated overflowed (level + 1) (rightOf level col) right row col' ch) := by
  simp only [Shown, mem_sites_binary, or_and_right, exists_or, exists_eq_left, and_assoc,
    exists_and_left]

/-- What a tree shows is in its strip, and on the canvas if the strip is. -/
theorem Shown.bounds (hlevel : level ≤ 4)
    (h : Shown evaluated overflowed level (start + firstCol level) e row col' ch) :
    InStrip level start row col' ∧ row < 16 ∧ (start + spread level ≤ 80 → col' < 80) := by
  obtain ⟨s, hs, hshows⟩ := h
  obtain ⟨habove, hbelow, start', hcol, hstart, hend⟩ := exists_start_of_mem_sites hlevel hs
  obtain ⟨hstrip, hrow, hcanvas⟩ := hshows.bounds hbelow hcol
  unfold InStrip at hstrip ⊢
  omega

/-! ### Stamps of one node -/

theorem caption_eq (overflowed : Bool) (result : Int32) :
    caption overflowed result =
      if overflowed ∧ result = 2147483647 then "(BIG)" else "(" ++ result.toInt.repr ++ ")" := by
  have hceiling : Word32.ceiling = 2147483647 := rfl
  simp only [caption, Numeral.text, hceiling, Bool.and_eq_true, beq_iff_eq]

/-- The mark of an inscription in its row. -/
def Inscription.mark (row : Nat) (i : Inscription) : Mark := .fitted row i.col (i.most + 1) i.text

theorem Inscription.mark_eq (row : Nat) (i : Inscription) :
    i.mark row = if i.Fits then .text ⟨row, i.col, i.text⟩ else .cut row i.col := by
  simp only [mark, Mark.fitted, Fits, Nat.lt_succ_iff]
  rfl

theorem draws_post (row col : Nat) :
    Draws [⟨row, col, "|"⟩] fun row' col' ch => row' = row ∧ col' = col ∧ ch = '|' := Draws.char rfl

theorem draws_cross (row col : Nat) :
    Draws [⟨row, col, "X"⟩] fun row' col' ch => row' = row ∧ col' = col ∧ ch = 'X' := Draws.char rfl

theorem Inscription.draws_mark (row : Nat) (i : Inscription) :
    Draws [(i.mark row).stamp] fun row' col ch => row' = row ∧ i.Shows col ch := by
  rw [mark_eq]
  unfold Shows
  split
  · exact Draws.singleton _
  · exact draws_cross row i.col

/-- The label and the caption of a node are stamped as they are inscribed. -/
theorem marks_inscriptions_literal (hlevel : level ≤ 4) (v : Int32) :
    marks evaluated overflowed level col (.literal v) =
      (Site.inscriptions evaluated overflowed ⟨level, col, .literal v⟩).map
        (Inscription.mark (labelRow level)) := by
  have hspread := five_le_spread hlevel
  have hlabel : spread level - 1 + 1 = spread level := by omega
  simp only [marks, Site.inscriptions, ← spread_eq, List.map_cons, List.map_nil, labelMark,
    Inscription.mark, hlabel]

theorem marks_inscriptions_binary (hlevel : level ≤ 4) :
    marks evaluated overflowed level col (.binary op left right result) =
      (Site.inscriptions evaluated overflowed
          ⟨level, col, .binary op left right result⟩).map (Inscription.mark (labelRow level)) ++
        belowMarks evaluated overflowed level col left right := by
  have hspread := five_le_spread hlevel
  have hlabel : spread level - 1 + 1 = spread level := by omega
  have hcaption : spread level - 3 + 1 = spread level - 2 := by omega
  rw [marks_binary, captionMarks, caption_eq]
  simp only [Site.inscriptions, ← spread_eq, List.map_cons, labelMark, Inscription.mark, hlabel]
  split
  · simp only [List.map_cons, List.map_nil, Inscription.mark, hcaption]
  · rfl

/-- Inscriptions that never meet can be taken in any order. -/
theorem draws_inscriptions {is : List Inscription} (row : Nat)
    (hapart : is.Pairwise fun i j => ∀ col ch ch', i.Shows col ch → ¬j.Shows col ch') :
    Draws ((is.map (Inscription.mark row)).map Mark.stamp) fun row' col ch =>
      row' = row ∧ ∃ i ∈ is, i.Shows col ch := by
  induction is with
  | nil => exact Draws.nil.congr fun _ _ _ => by simp
  | cons i is ih =>
    obtain ⟨hfirst, hothers⟩ := List.pairwise_cons.1 hapart
    refine ((i.draws_mark row).append (ih hothers) ?_).congr fun row' col ch => ?_
    · rintro row' col ch ch' ⟨-, hi⟩ ⟨-, j, hj, hshows⟩
      exact hfirst j hj col ch ch' hi hshows
    · simp only [← and_or_left, List.mem_cons, or_and_right, exists_or, exists_eq_left]

/-- A label of one character leaves the caption alone, whether it fits or not. -/
theorem Inscription.Shows.col_eq {i : Inscription} (hlength : i.text.length = 1)
    (h : i.Shows col' ch) : col' = i.col := by
  unfold Shows at h
  split at h
  · obtain ⟨hle, hch⟩ := h
    obtain ⟨hlt, -⟩ := List.getElem?_eq_some_iff.1 hch
    rw [String.length_toList] at hlt
    omega
  · exact h.1

theorem Site.pairwise_inscriptions (s : Site) :
    (s.inscriptions evaluated overflowed).Pairwise
      fun i j => ∀ col ch ch', i.Shows col ch → ¬j.Shows col ch' := by
  unfold inscriptions
  split
  · exact List.pairwise_singleton _ _
  · next op left right result hnode =>
    split
    · refine List.pairwise_pair.2 fun col' ch ch' hlabel hcaption => ?_
      have hlength : s.node.label.length = 1 := by
        rw [hnode]
        exact op.length_symbol
      have hcol : col' = s.col := hlabel.col_eq hlength
      have hbounds : s.col + 2 ≤ col' := hcaption.bounds.1
      omega
    · exact List.pairwise_singleton _ _

theorem Site.draws_text (s : Site) :
    Draws (((s.inscriptions evaluated overflowed).map
        (Inscription.mark (labelRow s.level))).map Mark.stamp)
      (s.ShowsText evaluated overflowed) :=
  draws_inscriptions _ s.pairwise_inscriptions

theorem draws_run {row col n : Nat} (c : Char) :
    Draws [⟨row, col, String.ofList (List.replicate n c)⟩] fun row' col' ch =>
      row' = row ∧ (col ≤ col' ∧ col' < col + n) ∧ ch = c := by
  refine (Draws.singleton _).congr fun row' col' ch => and_congr_right fun _ => ?_
  simp only [String.toList_ofList, List.getElem?_replicate, Option.ite_none_right_eq_some,
    Option.some.injEq, @eq_comm _ c, ← and_assoc]
  refine and_congr_left fun _ => ?_
  omega

/-- The post is stamped over the bar. -/
theorem draws_bar (hdeep : level < 4) (he : e.isLeaf = false) :
    Draws ((barMarks level (start + firstCol level)).map Mark.stamp)
      (Site.ShowsBar ⟨level, start + firstCol level, e⟩) := by
  have hspread : 5 ≤ spread (level + 1) := five_le_spread hdeep
  refine ((draws_run '_').over (draws_post _ _)).congr fun row col' ch => ?_
  simp only [Site.ShowsBar, leftCol_succ, leftOf_firstCol hdeep, rightOf_firstCol hdeep]
  constructor
  · rintro (⟨hrow, hcol, hch⟩ | ⟨⟨hrow, hcol, hch⟩, hpost⟩)
    · exact ⟨he, hrow, .inl ⟨hcol, hch⟩⟩
    · refine ⟨he, hrow, .inr ⟨hdeep, by omega, by omega, ?_, hch⟩⟩
      exact fun hcol => hpost '|' ⟨hrow, hcol, rfl⟩
  · rintro ⟨-, hrow, ⟨hcol, hch⟩ | ⟨-, hafter, hbefore, hne, hch⟩⟩
    · exact .inl ⟨hrow, hcol, hch⟩
    · exact .inr ⟨⟨hrow, by omega, hch⟩, fun ch' hpost => hne hpost.2.1⟩

/-- The two operands below the deepest level are cut in the same place. -/
theorem draws_below_deepest (he : e.isLeaf = false) :
    Draws ((belowMarks evaluated overflowed 4 col left right).map Mark.stamp) fun row col' ch =>
      Site.ShowsBar ⟨4, col, e⟩ row col' ch ∨ Site.ShowsEnds ⟨4, col, e⟩ row col' ch := by
  have hbelow : (belowMarks evaluated overflowed 4 col left right).map Mark.stamp =
      (cutOperandMarks 4 col).map Mark.stamp ++ (cutOperandMarks 4 col).map Mark.stamp := rfl
  have hcut : (cutOperandMarks 4 col).map Mark.stamp =
      [⟨barRow 4, col, "|"⟩] ++ [⟨endRow 4, col, "X"⟩] := rfl
  rw [hbelow, hcut]
  refine ((draws_post _ _).append (draws_cross _ _) ?_).again.congr fun row col' ch => ?_
  · rintro row col' ch ch' ⟨rfl, -⟩ ⟨hrow, -⟩
    exact absurd hrow (by decide)
  · simp [Site.ShowsBar, Site.ShowsEnds, he, barRow, endRow]

/-- An operand hangs from its post. -/
theorem draws_operand {row : Nat} {marks : List Mark} {shows : Nat → Nat → Char → Prop}
    (hmarks : Draws (marks.map Mark.stamp) shows)
    (habove : ∀ row' col' ch, shows row' col' ch → row < row') :
    Draws ((Mark.text ⟨row, col, "|"⟩ :: marks).map Mark.stamp) fun row' col' ch =>
      (row' = row ∧ col' = col ∧ ch = '|') ∨ shows row' col' ch := by
  refine (draws_post row col).append hmarks ?_
  rintro row' col' ch ch' ⟨rfl, -⟩ hshows
  exact Nat.lt_irrefl _ (habove _ _ _ hshows)

/-- The strips of the two operands are apart, and both begin below the bar and its posts. -/
theorem draws_below (hdeep : level < 4) (he : e.isLeaf = false)
    (hleft : Draws ((marks evaluated overflowed (level + 1) (start + firstCol (level + 1))
        left).map Mark.stamp)
      (Shown evaluated overflowed (level + 1) (start + firstCol (level + 1)) left))
    (hright : Draws ((marks evaluated overflowed (level + 1)
        (start + spread (level + 1) + firstCol (level + 1)) right).map Mark.stamp)
      (Shown evaluated overflowed (level + 1)
        (start + spread (level + 1) + firstCol (level + 1)) right)) :
    Draws ((belowMarks evaluated overflowed level (start + firstCol level) left right).map
        Mark.stamp) fun row col' ch =>
      (Site.ShowsBar ⟨level, start + firstCol level, e⟩ row col' ch ∨
        Site.ShowsEnds ⟨level, start + firstCol level, e⟩ row col' ch) ∨
      Shown evaluated overflowed (level + 1) (leftOf level (start + firstCol level)) left
          row col' ch ∨
        Shown evaluated overflowed (level + 1) (rightOf level (start + firstCol level)) right
          row col' ch := by
  have hnext : level + 1 ≤ 4 := hdeep
  have hspread := five_le_spread hnext
  have hbelow : ∀ {start e row col' ch},
      Shown evaluated overflowed (level + 1) (start + firstCol (level + 1)) e row col' ch →
        3 * level + 3 < row := fun h => (h.bounds hnext).1.1
  rw [belowMarks, if_pos (show level < deepestLevel from hdeep), leftCol_succ, rightCol_succ,
    leftOf_firstCol hdeep, rightOf_firstCol hdeep, List.map_append, List.map_append]
  refine (((draws_bar hdeep he).append (draws_operand hleft fun _ _ _ => hbelow) ?_).append
    (draws_operand hright fun _ _ _ => hbelow) ?_).congr fun row col' ch => ?_
  · rintro row col' ch ch' ⟨-, rfl, -⟩ (⟨hend, -⟩ | hl)
    · exact absurd hend (Nat.ne_of_lt (Nat.lt_succ_self _))
    · exact absurd (hbelow hl) (by simp)
  · rintro row col' ch ch' (⟨-, rfl, -⟩ | ⟨rfl, rfl, -⟩ | hl) (⟨hend, hcol, -⟩ | hr)
    · exact absurd hend (Nat.ne_of_lt (Nat.lt_succ_self _))
    · exact absurd (hbelow hr) (by simp)
    · omega
    · exact absurd (hbelow hr) (Nat.lt_irrefl _)
    · exact absurd (hbelow hl) (by simp [hend])
    · obtain ⟨-, -, hlend⟩ := (hl.bounds hnext).1
      obtain ⟨-, hrstart, -⟩ := (hr.bounds hnext).1
      omega
  · simp only [Site.ShowsEnds, he, if_pos hdeep, leftOf_firstCol hdeep,
      rightOf_firstCol hdeep, true_and, or_and_right, and_or_left]
    grind

/-- The ink of a tree's marks is what its sites show. -/
theorem draws_marks (hlevel : level ≤ 4) :
    Draws ((marks evaluated overflowed level (start + firstCol level) e).map Mark.stamp)
      (Shown evaluated overflowed level (start + firstCol level) e) := by
  induction e generalizing level start with
  | literal v =>
    rw [marks_inscriptions_literal hlevel]
    refine (Site.draws_text _).congr fun row col' ch => ?_
    rw [shown_literal]
    simp [Site.Shows, Site.ShowsBar, Site.ShowsEnds, Expr.isLeaf]
  | binary op left right result ihl ihr =>
    have hnode : (Expr.binary op left right result).isLeaf = false := rfl
    rw [marks_inscriptions_binary hlevel, List.map_append]
    rcases Nat.lt_or_eq_of_le hlevel with hdeep | rfl
    · have hnext : level + 1 ≤ 4 := hdeep
      refine ((Site.draws_text _).append (draws_below hdeep hnode (ihl hnext) (ihr hnext))
        ?_).congr fun row col' ch => ?_
      · rintro row col' ch ch' ⟨rfl, -⟩ ((⟨-, hbar, -⟩ | ⟨-, hends, -⟩) | hl | hr)
        · simp at hbar
        · simp at hends
        · rw [leftOf_firstCol hdeep] at hl
          exact absurd (hl.bounds hnext).1.1 (by simp)
        · rw [rightOf_firstCol hdeep] at hr
          exact absurd (hr.bounds hnext).1.1 (by simp)
      · rw [shown_binary]
        simp only [Site.Shows, hdeep, true_and, or_assoc]
    · refine ((Site.draws_text _).append (draws_below_deepest hnode) ?_).congr
        fun row col' ch => ?_
      · rintro row col' ch ch' ⟨rfl, -⟩ (⟨-, hbar, -⟩ | ⟨-, hends, -⟩)
        · simp at hbar
        · simp at hends
      · rw [shown_binary]
        simp only [Site.Shows, Nat.lt_irrefl, false_and, or_false]

end Trees

/-! ### Whole drawings -/

variable {evaluated overflowed : Bool} {e : Expr} {row col : Nat} {ch : Char}

theorem Shown.on_canvas (h : Shown evaluated overflowed 0 39 e row col ch) :
    row < 16 ∧ col < 80 := by
  obtain ⟨-, hrow, hcol⟩ := @Shown.bounds _ _ 0 0 _ _ _ _ (by decide) h
  exact ⟨hrow, hcol (by decide)⟩

/-- A cell of a drawing holds what a site shows there, or else it is blank. -/
theorem glyphIn?_rows_eq_some_iff :
    glyphIn? (ofExpr evaluated overflowed e).rows row col = some ch ↔
      Shown evaluated overflowed 0 39 e row col ch ∨
        (row < 16 ∧ col < 80) ∧ ch = ' ' ∧
          ¬∃ ch', Shown evaluated overflowed 0 39 e row col ch' := by
  have hroot : rootCol = 0 + firstCol 0 := rfl
  have hdraws := @draws_marks evaluated overflowed 0 0 e (by decide)
  rw [ofExpr, rows, glyphIn?_lines_eq_some_iff, hroot]
  simp only [Canvas.cell_stampAll, Canvas.cell_blank]
  cases hink : ink? ((marks evaluated overflowed 0 (0 + firstCol 0) e).map Mark.stamp) row col with
  | none =>
    have hnone : ¬∃ ch', Shown evaluated overflowed 0 39 e row col ch' := by
      rintro ⟨ch', hshown⟩
      exact Option.some_ne_none ch' (((hdraws row col ch').2 hshown).symm.trans hink)
    constructor
    · rintro ⟨hrow, hcol, rfl⟩
      exact .inr ⟨⟨hrow, hcol⟩, rfl, hnone⟩
    · rintro (hshown | ⟨⟨hrow, hcol⟩, rfl, -⟩)
      · exact absurd ⟨ch, hshown⟩ hnone
      · exact ⟨hrow, hcol, rfl⟩
  | some found =>
    have hfound : Shown evaluated overflowed 0 39 e row col found := (hdraws row col found).1 hink
    constructor
    · rintro ⟨hrow, hcol, rfl⟩
      exact .inl hfound
    · rintro (hshown | ⟨-, -, hnone⟩)
      · have hsame : found = ch :=
          Option.some.inj (hink.symm.trans ((hdraws row col ch).2 hshown))
        exact ⟨hshown.on_canvas.1, hshown.on_canvas.2, hsame⟩
      · exact absurd ⟨found, hfound⟩ hnone

/-- A drawing has 16 rows of 80 characters. In each cell is what a site of the tree shows there, and
a cell where no site shows anything is blank. -/
theorem rows_show_sites (evaluated overflowed : Bool) (e : Expr) :
    (ofExpr evaluated overflowed e).rows.map String.length = List.replicate 16 80 ∧
      ∀ row col ch, glyphIn? (ofExpr evaluated overflowed e).rows row col = some ch ↔
        (∃ s ∈ sites 0 39 e, s.Shows evaluated overflowed row col ch) ∨
          (row < 16 ∧ col < 80) ∧ ch = ' ' ∧
            ¬∃ ch', ∃ s ∈ sites 0 39 e, s.Shows evaluated overflowed row col ch' :=
  ⟨map_length_lines _, fun _ _ _ => glyphIn?_rows_eq_some_iff⟩

end ArithTree.Drawing
