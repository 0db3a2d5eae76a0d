import ArithTree.Proofs.Passes
import ArithTree.Proofs.Readings
import ArithTree.Worksheet

/-! Worksheets over any history. A desk has a worksheet in each of its places, blank at the start;
texts are put on worksheets, they are evaluated, narrated, cleared of diagnostics, copied to other
places and looked at, in any order. A worksheet is coherent when its fields tell one story: a text
that could not be read leaves nothing but its error, a tree is the one that was read with the
results of one fresh evaluation or with none at all, and each flag has its reason in that tree. Main
statement: after any history every worksheet on the desk is coherent. -/

namespace ArithTree

/-! ### Evaluation of a worksheet -/

namespace Worksheet

variable {w : Worksheet} {reportsOverflow : Bool}

theorem evaluate_of_invalid (h : w.valid = false) :
    (w.evaluate reportsOverflow).2 =
      { w with
        overflowed := false
        diagnostics := w.diagnostics ++ if reportsOverflow then [.invalidExpression] else [] } := by
  simp [evaluate, h]

theorem evaluate_of_none (h : w.valid = true) (hroot : w.root = none) :
    (w.evaluate reportsOverflow).2 = { w with evaluated := true, overflowed := false } := by
  simp [evaluate, h, hroot]

theorem evaluate_of_some {root : Expr} (h : w.valid = true) (hroot : w.root = some root) :
    (w.evaluate reportsOverflow).2 =
      { w with
        root := some ((Pass.start reportsOverflow).evaluate root).tree
        valid := ((Pass.start reportsOverflow).evaluate root).pass.isValid
        evaluated := true
        overflowed := ((Pass.start reportsOverflow).evaluate root).pass.overflowed
        diagnostics := w.diagnostics ++
          ((Pass.start reportsOverflow).evaluate root).pass.diagnostics } := by
  simp [evaluate, h, hroot]

theorem instruct_snd (w : Worksheet) :
    w.instruct.2 = if w.evaluated then w else (w.evaluate false).2 := by
  unfold instruct
  generalize (if w.evaluated then w else (w.evaluate false).2) = after
  cases hover : after.overflowed <;> cases hvalid : after.valid <;> simp [hover, hvalid]

end Worksheet

/-! ### Coherence -/

/-- How the fields of a worksheet hang together; `text` is the text that was put on it last. -/
structure Worksheet.Coherent (text : Option String) (w : Worksheet) : Prop where
  /-- Nothing is kept of a text that could not be read. -/
  ofError : ∀ cause, w.error = some cause →
    w.root = none ∧ w.written = none ∧ w.valid = false ∧ w.evaluated = false ∧
      w.overflowed = false ∧ ∀ d ∈ w.diagnostics, d = .invalidExpression
  /-- Without a tree and without an error nothing was written, or nothing but blanks. -/
  ofNoRoot : w.root = none → w.error = none →
    w.valid = true ∧ w.overflowed = false ∧ w.diagnostics = [] ∧
      (w.written = none ∨ w.written = some .blank)
  /-- A tree is what the text was read as, but for the results that it keeps. -/
  ofRoot : ∀ root, w.root = some root →
    w.error = none ∧
      (w.written = some .prefixed ∨ w.written = some .infixed ∨ w.written = some .postfixed) ∧
      (∀ v ∈ root.literals, 0 ≤ v.toInt) ∧ root.nesting ≤ maxNesting ∧
      ∃ input, text = some input ∧ (Worksheet.ofText input).root = some root.cleared
  /-- Before the first evaluation no result is kept. -/
  ofUnevaluated : w.evaluated = false →
    w.overflowed = false ∧ ∀ root, w.root = some root → ∀ v ∈ root.results, v = 0
  /-- After it the results are those of one fresh pass, whether or not that reports overflow. -/
  ofEvaluated : w.evaluated = true → ∀ root, w.root = some root →
    ∀ reportsOverflow, root = ((Pass.start reportsOverflow).evaluate root.cleared).tree
  /-- An overflow shows at the root. -/
  ofOverflowed : w.overflowed = true →
    w.evaluated = true ∧ ∃ op left right, w.root = some (.binary op left right Word32.ceiling)
  /-- What was read is invalid only for a zero divisor in the tree. -/
  ofInvalid : w.valid = false → w.error = none →
    w.evaluated = true ∧ ∃ root, w.root = some root ∧ root.HasZeroDivisor

namespace Worksheet

variable {w : Worksheet} {text : Option String}

theorem coherent_blank : Coherent none blank where
  ofError := by simp [blank]
  ofNoRoot := by simp [blank]
  ofRoot := by simp [blank]
  ofUnevaluated := by simp [blank]
  ofEvaluated := by simp [blank]
  ofOverflowed := by simp [blank]
  ofInvalid := by simp [blank]

/-- A text of blanks alone has no tree, every other text that is read has one. -/
theorem coherent_ofText (input : String) : Coherent (some input) (ofText input) := by
  cases hread : Reading.ofText input with
  | error cause =>
    have hsheet : ofText input = { blank with valid := false, error := some cause } := by
      unfold ofText
      rw [hread]
    rw [hsheet]
    constructor <;> simp [blank]
  | ok reading =>
    obtain ⟨written, root⟩ := reading
    have hsheet : ofText input = { blank with written := some written, root := root } := by
      unfold ofText
      rw [hread]
    obtain ⟨-, -, ⟨rfl, rfl⟩ | ⟨hblank, words, e, -, he, rfl⟩⟩ := Reading.ofText_eq_ok_iff.1 hread
    · rw [hsheet]
      constructor <;> simp [blank]
    · obtain ⟨t, ht, -, rfl⟩ := Prefix.read_eq_ok_iff.1 he
      have hwritten : written = .prefixed ∨ written = .infixed ∨ written = .postfixed := by
        cases written <;> simp_all
      have hroot : (ofText input).root = some t.toExpr.cleared := by
        rw [hsheet, WordTree.cleared_toExpr]
      have hnesting : t.toExpr.nesting ≤ maxNesting := by
        rw [WordTree.nesting_toExpr]
        exact ht.shallow
      have hresults := Expr.cleared_eq_self_iff.1 t.cleared_toExpr
      constructor
      case ofRoot =>
        intro root h
        rw [hsheet] at h ⊢
        obtain rfl := Option.some.inj h
        exact ⟨rfl, by simpa using hwritten, ht.literals_nonneg, hnesting, input, rfl, hroot⟩
      case ofUnevaluated =>
        rw [hsheet]
        exact fun _ => ⟨rfl, fun root h => Option.some.inj h ▸ hresults⟩
      all_goals simp [hsheet, blank]

theorem coherent_takeDiagnostics (h : w.Coherent text) : w.takeDiagnostics.2.Coherent text where
  ofError cause hcause := by
    obtain ⟨hroot, hwritten, hvalid, hevaluated, hoverflowed, -⟩ := h.ofError cause hcause
    exact ⟨hroot, hwritten, hvalid, hevaluated, hoverflowed, by simp [takeDiagnostics]⟩
  ofNoRoot hroot herror := by
    obtain ⟨hvalid, hoverflowed, -, hwritten⟩ := h.ofNoRoot hroot herror
    exact ⟨hvalid, hoverflowed, rfl, hwritten⟩
  ofRoot := h.ofRoot
  ofUnevaluated := h.ofUnevaluated
  ofEvaluated := h.ofEvaluated
  ofOverflowed := h.ofOverflowed
  ofInvalid := h.ofInvalid

/-! An evaluation finds an invalid worksheet, a valid one without a tree, or a valid one with a
tree. -/

theorem coherent_evaluate_of_invalid {reportsOverflow : Bool} (h : w.Coherent text)
    (hvalid : w.valid = false) : (w.evaluate reportsOverflow).2.Coherent text := by
  rw [evaluate_of_invalid hvalid]
  constructor
  case ofError =>
    intro cause hcause
    obtain ⟨hroot, hwritten, hvalid, hevaluated, -, hdiagnostics⟩ := h.ofError cause hcause
    refine ⟨hroot, hwritten, hvalid, hevaluated, rfl, ?_⟩
    intro d hd
    rcases List.mem_append.1 hd with hd | hd
    · exact hdiagnostics d hd
    · cases reportsOverflow <;> simp_all
  case ofNoRoot =>
    intro hroot herror
    obtain ⟨htrue, -⟩ := h.ofNoRoot hroot herror
    simp [hvalid] at htrue
  case ofRoot => exact h.ofRoot
  case ofUnevaluated => exact fun hevaluated => ⟨rfl, (h.ofUnevaluated hevaluated).2⟩
  case ofEvaluated => exact h.ofEvaluated
  case ofOverflowed => simp
  case ofInvalid => exact h.ofInvalid

theorem coherent_evaluate_of_none {reportsOverflow : Bool} (h : w.Coherent text)
    (hvalid : w.valid = true) (hroot : w.root = none) :
    (w.evaluate reportsOverflow).2.Coherent text := by
  rw [evaluate_of_none hvalid hroot]
  constructor
  case ofError =>
    intro cause hcause
    obtain ⟨-, -, hfalse, -⟩ := h.ofError cause hcause
    simp [hvalid] at hfalse
  case ofNoRoot =>
    intro _ herror
    obtain ⟨-, -, hdiagnostics, hwritten⟩ := h.ofNoRoot hroot herror
    exact ⟨hvalid, rfl, hdiagnostics, hwritten⟩
  all_goals simp [hroot, hvalid]

/-- The evaluation starts from whatever results the tree has kept, and they make no difference. -/
theorem coherent_evaluate_of_some {reportsOverflow : Bool} {root : Expr} (h : w.Coherent text)
    (hvalid : w.valid = true) (hroot : w.root = some root) :
    (w.evaluate reportsOverflow).2.Coherent text := by
  obtain ⟨herror, hwritten, hliterals, hnesting, input, htext, hread⟩ := h.ofRoot root hroot
  have hcleared : ((Pass.start reportsOverflow).evaluate root).tree.cleared = root.cleared :=
    Pass.cleared_tree_evaluate _ _
  rw [evaluate_of_some hvalid hroot]
  constructor
  case ofError => simp [herror]
  case ofNoRoot => simp
  case ofRoot =>
    rintro _ ⟨⟩
    refine ⟨herror, hwritten, ?_, ?_, input, htext, by rw [hread, hcleared]⟩
    · rwa [Expr.literals_eq_of_cleared_eq hcleared]
    · rwa [Expr.nesting_eq_of_cleared_eq hcleared]
  case ofUnevaluated => simp
  case ofEvaluated =>
    rintro - _ ⟨⟩ reports
    rw [hcleared]
    have hflag : (Pass.start reportsOverflow).overflowed = (Pass.start reports).overflowed := rfl
    exact (Pass.evaluate_congr hflag (Expr.cleared_cleared root).symm).2.1
  case ofOverflowed =>
    intro hoverflowed
    refine ⟨rfl, ?_⟩
    have hvalue := Pass.value_eq_ceiling_of_raised rfl hoverflowed
    cases root with
    | literal v => simp [Pass.evaluate, Pass.start] at hoverflowed
    | binary op left right kept =>
      rw [Pass.evaluate_binary] at hvalue ⊢
      simp only at hvalue ⊢
      exact ⟨op, _, _, by rw [hvalue]⟩
  case ofInvalid =>
    intro hinvalid _
    exact ⟨rfl, _, rfl, Pass.hasZeroDivisor_of_invalidated rfl hinvalid⟩

theorem coherent_evaluate (reportsOverflow : Bool) (h : w.Coherent text) :
    (w.evaluate reportsOverflow).2.Coherent text := by
  cases hvalid : w.valid with
  | false => exact coherent_evaluate_of_invalid h hvalid
  | true =>
    cases hroot : w.root with
    | none => exact coherent_evaluate_of_none h hvalid hroot
    | some root => exact coherent_evaluate_of_some h hvalid hroot

theorem coherent_instruct (h : w.Coherent text) : w.instruct.2.Coherent text := by
  rw [instruct_snd]
  split
  · exact h
  · exact coherent_evaluate false h

end Worksheet

/-! ### Histories -/

/-- A worksheet, and the text that was put on it last. -/
structure Slot where
  text : Option String := none
  sheet : Worksheet := .blank

/-- A worksheet in every place. -/
abbrev Desk := Nat → Slot

namespace Desk

/-- One thing that is done at the desk. -/
inductive Action where
  /-- A blank worksheet is laid in a place. -/
  | renew (place : Nat)
  /-- A text is put on the worksheet in a place. -/
  | fill (place : Nat) (input : String)
  | evaluate (place : Nat)
  | instruct (place : Nat)
  | takeDiagnostics (place : Nat)
  /-- A copy of the worksheet in one place is laid in another. -/
  | copy (source target : Nat)
  /-- A question is asked that changes nothing: for a text of the tree, a drawing or a flag. -/
  | consult (place : Nat)

def start : Desk := fun _ => {}

/-- The desk with another slot in one place. -/
def lay (desk : Desk) (place : Nat) (slot : Slot) : Desk :=
  fun other => if other = place then slot else desk other

def perform (desk : Desk) : Action → Desk
  | .renew place => desk.lay place {}
  | .fill place input => desk.lay place ⟨some input, .ofText input⟩
  | .evaluate place =>
    desk.lay place { desk place with sheet := ((desk place).sheet.evaluate true).2 }
  | .instruct place => desk.lay place { desk place with sheet := (desk place).sheet.instruct.2 }
  | .takeDiagnostics place =>
    desk.lay place { desk place with sheet := (desk place).sheet.takeDiagnostics.2 }
  | .copy source target => desk.lay target (desk source)
  | .consult _ => desk

/-- The desk after a whole history. -/
def after (history : List Action) : Desk := history.foldl perform start

/-- Every worksheet is coherent with the text that was put on it last. -/
def Coherent (desk : Desk) : Prop := ∀ place, (desk place).sheet.Coherent (desk place).text

theorem coherent_lay {desk : Desk} (h : desk.Coherent) (place : Nat) {slot : Slot}
    (hslot : slot.sheet.Coherent slot.text) : (desk.lay place slot).Coherent := by
  intro other
  unfold lay
  split
  · exact hslot
  · exact h other

theorem coherent_perform {desk : Desk} (h : desk.Coherent) (action : Action) :
    (desk.perform action).Coherent := by
  cases action with
  | renew place => exact coherent_lay h place Worksheet.coherent_blank
  | fill place input => exact coherent_lay h place (Worksheet.coherent_ofText input)
  | evaluate place => exact coherent_lay h place (Worksheet.coherent_evaluate true (h place))
  | instruct place => exact coherent_lay h place (Worksheet.coherent_instruct (h place))
  | takeDiagnostics place =>
    exact coherent_lay h place (Worksheet.coherent_takeDiagnostics (h place))
  | copy source target => exact coherent_lay h target (h source)
  | consult place => exact h

theorem coherent_foldl_perform {desk : Desk} (h : desk.Coherent) (history : List Action) :
    (history.foldl perform desk).Coherent := by
  induction history generalizing desk with
  | nil => exact h
  | cons action history ih => exact ih (coherent_perform h action)

/-- After any history every worksheet on the desk is coherent. -/
theorem coherent_after (history : List Action) : (after history).Coherent :=
  coherent_foldl_perform (fun _ => Worksheet.coherent_blank) history

end Desk

end ArithTree
