import ArithTree.Infix

/-! What a scan makes of a whole group of words. A group is read at a level of precedence: whatever
waited before it still waits, operators of that level or a tighter one are put above it, and once
they are released the group has been emitted. Proved: numerals, parenthesised groups and two groups
joined by an operator are read so, and a scan over a group emits it. -/

namespace ArithTree.Infix.Yard

variable {level : Nat} {words words' out out' : List String}

/-- The emitted words after all the operators have been released, the first of them first. -/
def release : List Operator → List String → List String
  | [], emitted => emitted
  | op :: ops, emitted => release ops (op.symbol :: emitted)

theorem release_append (ops ops' : List Operator) (emitted : List String) :
    release (ops ++ ops') emitted = release ops' (release ops emitted) := by
  induction ops generalizing emitted with
  | nil => rfl
  | cons op ops ih => exact ih _

/-- What waits last, if it is an operator, binds no tighter than the level. -/
def Within (level : Nat) : List Held → Prop
  | .operator op :: _ => op.precedence ≤ level
  | _ => True

theorem Within.mono {level' : Nat} {held : List Held} (hw : Within level held)
    (h : level ≤ level') : Within level' held := by
  rcases held with _ | ⟨_ | op, held⟩
  · trivial
  · trivial
  · exact Nat.le_trans hw h

/-! ### Operators above what waits -/

theorem close_operators (ops : List Operator) (emitted : List String) (held : List Held) :
    close emitted (ops.map .operator ++ held) = close (release ops emitted) held := by
  induction ops generalizing emitted with
  | nil => rfl
  | cons op ops ih => exact ih _

theorem drain_operators (ops : List Operator) (emitted : List String) (held : List Held) :
    drain emitted (ops.map .operator ++ held) = drain (release ops emitted) held := by
  induction ops generalizing emitted with
  | nil => rfl
  | cons op ops ih => exact ih _

theorem receive_operators {op : Operator} {ops : List Operator}
    (h : ∀ top ∈ ops, op.precedence < top.precedence) (emitted : List String) (held : List Held) :
    receive op emitted (ops.map .operator ++ held) = receive op (release ops emitted) held := by
  induction ops generalizing emitted with
  | nil => rfl
  | cons top ops ih =>
    rw [List.map_cons, List.cons_append, receive, if_pos (h top (by simp))]
    exact ih (fun other hother => h other (by simp [hother])) _

theorem receive_of_within {op : Operator} {held : List Held} (h : Within op.precedence held)
    (emitted : List String) : receive op emitted held = ⟨emitted, .operator op :: held⟩ := by
  rcases held with _ | ⟨_ | top, held⟩
  · rfl
  · rfl
  · rw [receive, if_neg (Nat.not_lt.2 h)]

/-! ### Groups -/

/-- The words are read at the level as a group that is emitted as `out`, the latest word first. -/
def Reads (level : Nat) (words out : List String) : Prop :=
  ∀ emitted held, Within level held → ∃ emitted' ops,
    words.foldlM step ⟨emitted, held⟩ = .ok ⟨emitted', ops.map .operator ++ held⟩ ∧
      (∀ op ∈ ops, level ≤ op.precedence) ∧ release ops emitted' = out ++ emitted

theorem Reads.mono {level' : Nat} (h : Reads level' words out) (hlevel : level ≤ level') :
    Reads level words out := by
  intro emitted held hheld
  obtain ⟨emitted', ops, hfold, hops, hrelease⟩ := h emitted held (hheld.mono hlevel)
  exact ⟨emitted', ops, hfold, fun op hop => Nat.le_trans hlevel (hops op hop), hrelease⟩

theorem reads_numeral {word : String} (h : Numeral.isNumeral word = true) :
    Reads level [word] [word] := by
  intro emitted held _
  refine ⟨word :: emitted, [], ?_, by simp, rfl⟩
  rw [List.foldlM_cons, step_numeral h]
  rfl

theorem reads_group (h : Reads 1 words out) : Reads level ("(" :: (words ++ [")"])) out := by
  intro emitted held _
  obtain ⟨emitted', ops, hfold, -, hrelease⟩ := h emitted (.opening :: held) trivial
  refine ⟨out ++ emitted, [], ?_, by simp, rfl⟩
  rw [List.foldlM_cons, step_opening, ReadError.ok_bind, List.foldlM_append, hfold,
    ReadError.ok_bind, List.foldlM_cons, step_closing, close_operators, hrelease]
  rfl

/-- The operator waits between the two groups: the first has been emitted when it arrives, and the
second puts its own operators above it. -/
theorem reads_operator {op : Operator} (hop : op.precedence = level)
    (h : Reads (level + 1) words out) (h' : Reads level words' out') :
    Reads level (words ++ op.symbol :: words') (op.symbol :: (out' ++ out)) := by
  subst hop
  intro emitted held hheld
  obtain ⟨emitted₁, ops₁, hfold₁, hops₁, hrelease₁⟩ := h emitted held (hheld.mono (Nat.le_succ _))
  have hreceive : receive op emitted₁ (ops₁.map .operator ++ held) =
      ⟨out ++ emitted, .operator op :: held⟩ := by
    rw [receive_operators hops₁, hrelease₁, receive_of_within hheld]
  obtain ⟨emitted₂, ops₂, hfold₂, hops₂, hrelease₂⟩ :=
    h' (out ++ emitted) (.operator op :: held) (Nat.le_refl op.precedence)
  refine ⟨emitted₂, ops₂ ++ [op], ?_, ?_, ?_⟩
  · have hheld' : (ops₂ ++ [op]).map Held.operator ++ held =
        ops₂.map .operator ++ .operator op :: held := by simp
    rw [hheld', List.foldlM_append, hfold₁, ReadError.ok_bind, List.foldlM_cons, step_symbol,
      hreceive, ReadError.ok_bind, hfold₂]
  · intro other hother
    rcases List.mem_append.1 hother with hother | hother
    · exact hops₂ other hother
    · exact Nat.le_of_eq (congrArg Operator.precedence (List.mem_singleton.1 hother).symm)
  · calc release (ops₂ ++ [op]) emitted₂ = op.symbol :: release ops₂ emitted₂ :=
          release_append ops₂ [op] emitted₂
      _ = op.symbol :: (out' ++ out) ++ emitted := by simp [hrelease₂]

theorem scan_of_reads (h : Reads level words out) : scan words = .ok out := by
  obtain ⟨emitted, ops, hfold, -, hrelease⟩ := h [] [] trivial
  unfold scan Yard.empty
  rw [hfold, ReadError.ok_bind, drain_operators, hrelease]
  simp [drain]

end ArithTree.Infix.Yard
