import ArithTree.Proofs.Parentheses

/-! Phrases read from the first word to the last. A chain comes out with every operator taking the
whole rest of it for its right operand, as an operator waits until one that binds less tightly
arrives. At every moment of such a scan what waits rises from one open group to the next, and what
waits below the innermost open group stays there, whatever is read before that group is closed. Main
statement: the words of a phrase are rearranged into those of its tree with the chains grouped to
the right, through yards that are all in this order. -/

namespace ArithTree.Infix

/-! ### Steps -/

namespace Yard

variable {yard yard' : Yard} {op : Operator} {held above below : List Held} {word : String}
  {words : List String}

/-- An arriving operator releases what binds tighter, and waits above what does not. -/
theorem receive_cases (op : Operator) (emitted : List String) (held : List Held) :
    ∃ (ops : List Operator) (below : List Held), held = ops.map .operator ++ below ∧
      receive op emitted held = ⟨release ops emitted, .operator op :: below⟩ ∧
      Within op.precedence below := by
  induction held generalizing emitted with
  | nil => exact ⟨[], [], rfl, rfl, trivial⟩
  | cons entry held ih =>
    cases entry with
    | opening => exact ⟨[], .opening :: held, rfl, rfl, trivial⟩
    | operator top =>
      by_cases htop : op.precedence < top.precedence
      · obtain ⟨ops, below, rfl, hreceive, hwithin⟩ := ih (top.symbol :: emitted)
        refine ⟨top :: ops, below, rfl, ?_, hwithin⟩
        rw [receive, if_pos htop, hreceive]
        rfl
      · refine ⟨[], .operator top :: held, rfl, ?_, Nat.not_lt.1 htop⟩
        rw [receive, if_neg htop]
        rfl

theorem held_of_close {emitted : List String} (h : close emitted held = .ok yard) :
    ∃ ops : List Operator, held = ops.map .operator ++ .opening :: yard.held := by
  induction held generalizing emitted with
  | nil => cases h
  | cons entry held ih =>
    cases entry with
    | opening =>
      cases h
      exact ⟨[], rfl⟩
    | operator top =>
      obtain ⟨ops, rfl⟩ := ih h
      exact ⟨top :: ops, rfl⟩

/-- What a word does to what waits. -/
theorem step_cases (h : yard.step word = .ok yard') :
    (Numeral.isNumeral word = true ∧ yard'.held = yard.held) ∨
      (word = "(" ∧ yard'.held = .opening :: yard.held) ∨
      (word = ")" ∧ ∃ ops : List Operator, yard.held = ops.map .operator ++ .opening :: yard'.held) ∨
      ∃ (op : Operator) (ops : List Operator) (below : List Held), word = op.symbol ∧
        yard.held = ops.map .operator ++ below ∧ yard'.held = .operator op :: below ∧
        Within op.precedence below := by
  by_cases hlexeme : Lexeme.IsLexeme word
  · rcases hlexeme with hnumeral | rfl | rfl | ⟨op, rfl⟩
    · rw [step_numeral hnumeral] at h
      cases h
      exact .inl ⟨hnumeral, rfl⟩
    · rw [step_opening] at h
      cases h
      exact .inr (.inl ⟨rfl, rfl⟩)
    · rw [step_closing] at h
      exact .inr (.inr (.inl ⟨rfl, held_of_close h⟩))
    · rw [step_symbol] at h
      obtain ⟨ops, below, hheld, hreceive, hwithin⟩ := receive_cases op yard.emitted yard.held
      rw [hreceive] at h
      cases h
      exact .inr (.inr (.inr ⟨op, ops, below, rfl, hheld, rfl, hwithin⟩))
  · rw [step_of_not_isLexeme hlexeme] at h
    cases h

/-! ### What waits rises -/

/-- No operator waits directly above one that binds tighter. -/
def Rises : List Held → Prop
  | [] => True
  | .opening :: held => Rises held
  | .operator op :: held => Within op.precedence held ∧ Rises held

theorem Rises.of_append (h : Rises (above ++ below)) : Rises below := by
  induction above with
  | nil => exact h
  | cons entry above ih =>
    cases entry with
    | opening => exact ih h
    | operator op => exact ih h.2

theorem rises_step (h : yard.step word = .ok yard') (hrises : Rises yard.held) :
    Rises yard'.held := by
  rcases step_cases h with ⟨-, hheld⟩ | ⟨-, hheld⟩ | ⟨-, ops, hheld⟩ |
    ⟨op, ops, below, -, hheld, hheld', hwithin⟩
  · rwa [hheld]
  · rwa [hheld]
  · rw [hheld] at hrises
    exact hrises.of_append
  · rw [hheld] at hrises
    rw [hheld']
    exact ⟨hwithin, hrises.of_append⟩

theorem rises_foldlM_step (h : words.foldlM step yard = .ok yard') (hrises : Rises yard.held) :
    Rises yard'.held := by
  induction words generalizing yard with
  | nil =>
    cases h
    exact hrises
  | cons word words ih =>
    obtain ⟨between, hstep, hrest⟩ := ReadError.foldlM_cons_eq_ok_iff.1 h
    exact ih hrest (rises_step hstep hrises)

/-- Between two open groups what waits later binds at least as tightly. -/
theorem Rises.pairwise {ops : List Operator} (h : Rises (ops.map .operator ++ below)) :
    ops.Pairwise fun top lower => lower.precedence ≤ top.precedence := by
  induction ops with
  | nil => exact List.Pairwise.nil
  | cons op ops ih =>
    obtain ⟨hwithin, hrises⟩ := h
    have hpairwise := ih hrises
    refine List.pairwise_cons.2 ⟨fun lower hlower => ?_, hpairwise⟩
    cases ops with
    | nil => cases hlower
    | cons next ops =>
      have hnext : next.precedence ≤ op.precedence := hwithin
      rcases List.mem_cons.1 hlower with rfl | hlower
      · exact hnext
      · exact Nat.le_trans ((List.pairwise_cons.1 hpairwise).1 lower hlower) hnext

/-! ### What waits below an open group -/

/-- Operators at the end of what waits lie above any open group. -/
theorem exists_of_operators_append {ops : List Operator}
    (h : ops.map .operator ++ held = above ++ .opening :: below) :
    ∃ above', above = ops.map .operator ++ above' ∧ held = above' ++ .opening :: below := by
  induction ops generalizing above with
  | nil => exact ⟨above, rfl, h⟩
  | cons op ops ih =>
    cases above with
    | nil => cases h
    | cons entry above =>
      obtain ⟨rfl, hrest⟩ := List.cons.inj h
      obtain ⟨above', rfl, hheld⟩ := ih hrest
      exact ⟨above', rfl, hheld⟩

theorem count_opening_operators (ops : List Operator) :
    (ops.map Held.operator).count .opening = 0 := by
  simp [List.count_eq_zero]

end Yard

/-- A group in which so many others are open is still open after the words. -/
def StaysOpen (n : Nat) (words : List String) : Prop :=
  ¬∃ inner rest, BalancedUpTo n inner ∧ words = inner ++ ")" :: rest

section StaysOpen

variable {n : Nat} {word : String} {words : List String}

theorem StaysOpen.other (h : StaysOpen n (word :: words)) (hopening : word ≠ "(")
    (hclosing : word ≠ ")") : StaysOpen n words := by
  rintro ⟨inner, rest, hinner, rfl⟩
  exact h ⟨word :: inner, rest, hinner.other hopening hclosing, rfl⟩

theorem StaysOpen.opening (h : StaysOpen n ("(" :: words)) : StaysOpen (n + 1) words := by
  rintro ⟨inner, rest, hinner, rfl⟩
  exact h ⟨"(" :: inner, rest, hinner.opening, rfl⟩

theorem StaysOpen.closing (h : StaysOpen n (")" :: words)) : ∃ m, n = m + 1 ∧ StaysOpen m words := by
  cases n with
  | zero => exact absurd ⟨[], words, Balanced.nil, rfl⟩ h
  | succ m =>
    refine ⟨m, rfl, ?_⟩
    rintro ⟨inner, rest, hinner, rfl⟩
    exact h ⟨")" :: inner, rest, ⟨[], inner, .nil, hinner, rfl⟩, rfl⟩

end StaysOpen

namespace Yard

variable {yard yard' : Yard} {above below : List Held} {word : String} {words inner : List String}

theorem exists_above_of_step (h : yard.step word = .ok yard')
    (hheld : yard.held = above ++ .opening :: below)
    (hopen : StaysOpen (above.count .opening) (word :: words)) :
    ∃ above', yard'.held = above' ++ .opening :: below ∧
      StaysOpen (above'.count .opening) words := by
  rcases step_cases h with ⟨hnumeral, hheld'⟩ | ⟨rfl, hheld'⟩ | ⟨rfl, ops, hclosed⟩ |
    ⟨op, ops, held, rfl, hreleased, hheld', -⟩
  · have hopening : word ≠ "(" := by
      rintro rfl
      exact absurd hnumeral (by decide)
    have hclosing : word ≠ ")" := by
      rintro rfl
      exact absurd hnumeral (by decide)
    exact ⟨above, hheld'.trans hheld, hopen.other hopening hclosing⟩
  · refine ⟨.opening :: above, by rw [hheld', hheld, List.cons_append], ?_⟩
    rw [List.count_cons_self]
    exact hopen.opening
  · obtain ⟨above', rfl, hrest⟩ := exists_of_operators_append (hclosed.symm.trans hheld)
    rw [List.count_append, count_opening_operators, Nat.zero_add] at hopen
    obtain ⟨m, hm, hopen'⟩ := hopen.closing
    cases above' with
    | nil => cases hm
    | cons entry above' =>
      obtain ⟨rfl, hrest'⟩ := List.cons.inj hrest
      rw [List.count_cons_self] at hm
      obtain rfl := Nat.succ_inj.1 hm
      exact ⟨above', hrest', hopen'⟩
  · obtain ⟨above', rfl, hrest⟩ := exists_of_operators_append (hreleased.symm.trans hheld)
    have hsymbol : op.symbol ≠ "(" ∧ op.symbol ≠ ")" := by cases op <;> decide
    refine ⟨.operator op :: above', by rw [hheld', hrest, List.cons_append], ?_⟩
    rw [List.count_append, count_opening_operators, Nat.zero_add] at hopen
    rw [List.count_cons_of_ne (by simp)]
    exact hopen.other hsymbol.1 hsymbol.2

/-- While a group is open, it waits with all that is below it. -/
theorem exists_above_of_foldlM_step (h : words.foldlM step yard = .ok yard')
    (hheld : yard.held = above ++ .opening :: below)
    (hopen : StaysOpen (above.count .opening) words) :
    ∃ above', yard'.held = above' ++ .opening :: below := by
  induction words generalizing yard above with
  | nil =>
    cases h
    exact ⟨above, hheld⟩
  | cons word words ih =>
    obtain ⟨between, hstep, hrest⟩ := ReadError.foldlM_cons_eq_ok_iff.1 h
    obtain ⟨above', hheld', hopen'⟩ := exists_above_of_step hstep hheld hopen
    exact ih hrest hheld' hopen'

/-- A closing parenthesis takes away the innermost open group with the operators in it. -/
theorem held_of_step_closing {ops : List Operator} (h : yard.step ")" = .ok yard')
    (hheld : yard.held = ops.map .operator ++ .opening :: below) : yard'.held = below := by
  rw [step_closing, hheld, close_operators] at h
  cases h
  rfl

/-- Balanced words leave what was there before them, but for operators in front of the innermost
open group. -/
theorem exists_operators_of_foldlM_step (hbalanced : Balanced inner) {ops : List Operator}
    (h : inner.foldlM step yard = .ok yard')
    (hheld : yard.held = ops.map .operator ++ .opening :: below) :
    ∃ ops' : List Operator, yard'.held = ops'.map .operator ++ .opening :: below := by
  induction hbalanced generalizing yard yard' ops below with
  | nil =>
    cases h
    exact ⟨ops, hheld⟩
  | @other word words notOpening notClosing _ ih =>
    obtain ⟨between, hstep, hrest⟩ := ReadError.foldlM_cons_eq_ok_iff.1 h
    rcases step_cases hstep with ⟨-, hheld'⟩ | ⟨rfl, -⟩ | ⟨rfl, -⟩ |
      ⟨op, released, held, -, hreleased, hheld', -⟩
    · exact ih hrest (hheld'.trans hheld)
    · exact absurd rfl notOpening
    · exact absurd rfl notClosing
    · obtain ⟨above, habove, hrest'⟩ := exists_of_operators_append (hreleased.symm.trans hheld)
      obtain ⟨-, kept, -, -, rfl⟩ := List.map_eq_append_iff.1 habove
      have hkept : between.held = (op :: kept).map .operator ++ .opening :: below := by
        rw [hheld', hrest']
        rfl
      exact ih hrest hkept
  | @group inside words _ _ ihinside ihwords =>
    rw [List.foldlM_cons, step_opening, ReadError.ok_bind] at h
    obtain ⟨filled, hinside, hclosed⟩ := ReadError.foldlM_append_eq_ok_iff.1 h
    obtain ⟨closed, hstep, hwords⟩ := ReadError.foldlM_cons_eq_ok_iff.1 hclosed
    have hopened : Held.opening :: yard.held =
        ([] : List Operator).map .operator ++ .opening :: yard.held := rfl
    obtain ⟨ops', hfilled⟩ := ihinside hinside hopened
    exact ihwords hwords ((held_of_step_closing hstep hfilled).trans hheld)

end Yard

/-! ### Chains grouped to the right -/

mutual

/-- The tree of a phrase in which every chain groups to the right. -/
def Phrase.treeToRight {level : Nat} : Phrase level → WordTree
  | .numeral word isNumeral => .operand word (Numeral.ofSymbol?_of_isNumeral isNumeral)
  | .group inner => inner.treeToRight
  | .chain first links => links.treeToRightOf first.treeToRight

/-- The tree of a chain that begins with the given operand: the first operator has all that follows
it for its right operand. -/
def Links.treeToRightOf {level : Nat} : Links level → WordTree → WordTree
  | .nil, first => first
  | .cons _ op _ operand links, first => .node op first (links.treeToRightOf operand.treeToRight)

end

mutual

theorem Phrase.reads_forwards {level : Nat} : (phrase : Phrase level) →
    Yard.Reads level phrase.words phrase.treeToRight.postfixWords.reverse
  | .numeral word isNumeral => by
    rw [Phrase.words]
    exact Yard.reads_numeral isNumeral
  | .group inner => by
    rw [Phrase.words]
    exact Yard.reads_group inner.reads_forwards
  | .chain first links => by
    rw [Phrase.words]
    exact links.reads_forwards_after first.reads_forwards

/-- The operator in front of a link waits at the level of the chain while the rest of the chain is
read above it. -/
theorem Links.reads_forwards_after {level : Nat} {words : List String} {first : WordTree} :
    (links : Links level) → Yard.Reads (level + 1) words first.postfixWords.reverse →
    Yard.Reads level (words ++ links.words) (links.treeToRightOf first).postfixWords.reverse
  | .nil, h => by simpa [Links.words, Links.treeToRightOf] using h.mono (Nat.le_succ level)
  | .cons word op joins operand links, h => by
    have hrest := links.reads_forwards_after operand.reads_forwards
    have hall := Yard.reads_operator joins.precedence_eq h hrest
    rw [Links.words, Links.treeToRightOf, WordTree.postfixWords, List.reverse_append,
      List.reverse_append, joins.word_eq]
    exact hall

end

theorem toPostfixWords_phrase {level : Nat} (phrase : Phrase level) :
    toPostfixWords phrase.words = .ok phrase.treeToRight.postfixWords := by
  rw [toPostfixWords, Yard.scan_of_reads phrase.reads_forwards]
  exact congrArg Except.ok (List.reverse_reverse _)

/-! ### Moments of a scan -/

/-- What waits at a moment of a scan, and what becomes of it over the words that follow. -/
structure Yard.Steady (yard : Yard) (following : List String) : Prop where
  /-- Between two open groups what waits later binds at least as tightly. -/
  rises : ∀ (above below : List Held) (ops : List Operator),
    yard.held = above ++ (ops.map .operator ++ below) →
    ops.Pairwise fun top lower => lower.precedence ≤ top.precedence
  /-- What waits below the innermost open group stays there until the group is closed. -/
  stays : ∀ (ops : List Operator) (below : List Held),
    yard.held = ops.map .operator ++ .opening :: below →
    ∀ words rest, following = words ++ rest → ¬Closes words →
    ∃ yard' above, words.foldlM Yard.step yard = .ok yard' ∧
      yard'.held = above ++ .opening :: below
  /-- It is what waits when the group has been closed. -/
  remains : ∀ (ops : List Operator) (below : List Held),
    yard.held = ops.map .operator ++ .opening :: below →
    ∀ inner rest, following = inner ++ ")" :: rest → Balanced inner →
    ∃ yard', (inner ++ [")"]).foldlM Yard.step yard = .ok yard' ∧ yard'.held = below

/-- Every moment of a scan that is not refused is steady. -/
theorem Yard.steady_of_foldlM_step {before following : List String} {yard last : Yard}
    (hbefore : before.foldlM step empty = .ok yard)
    (hfollowing : following.foldlM step yard = .ok last) : yard.Steady following := by
  have hrises : Rises yard.held := rises_foldlM_step hbefore trivial
  refine ⟨?_, ?_, ?_⟩
  · intro above below ops hheld
    rw [hheld] at hrises
    exact hrises.of_append.pairwise
  · rintro ops below hheld words rest rfl hopen
    obtain ⟨yard', hwords, -⟩ := ReadError.foldlM_append_eq_ok_iff.1 hfollowing
    have hstays : StaysOpen ((ops.map Held.operator).count .opening) words := by
      rw [count_opening_operators]
      exact hopen
    obtain ⟨above, hheld'⟩ := exists_above_of_foldlM_step hwords hheld hstays
    exact ⟨yard', above, hwords, hheld'⟩
  · rintro ops below hheld inner rest rfl hbalanced
    obtain ⟨filled, hinner, hclosing⟩ := ReadError.foldlM_append_eq_ok_iff.1 hfollowing
    obtain ⟨closed, hstep, -⟩ := ReadError.foldlM_cons_eq_ok_iff.1 hclosing
    obtain ⟨ops', hfilled⟩ := exists_operators_of_foldlM_step hbalanced hinner hheld
    have hclosed : (inner ++ [")"]).foldlM step yard = .ok closed :=
      ReadError.foldlM_append_eq_ok_iff.2
        ⟨filled, hinner, ReadError.foldlM_cons_eq_ok_iff.2 ⟨closed, hstep, rfl⟩⟩
    exact ⟨closed, hclosed, held_of_step_closing hstep hfilled⟩

/-- The words of a phrase are rearranged into those of its tree with the chains grouped to the
right, and every moment of the scan is steady. -/
theorem toPostfixWords_phrase_steadily {level : Nat} (phrase : Phrase level) :
    toPostfixWords phrase.words = .ok phrase.treeToRight.postfixWords ∧
      ∀ before following, phrase.words = before ++ following →
        ∃ yard, before.foldlM Yard.step Yard.empty = .ok yard ∧ yard.Steady following := by
  refine ⟨toPostfixWords_phrase phrase, fun before following hwords => ?_⟩
  have hscan := Yard.scan_of_reads phrase.reads_forwards
  obtain ⟨last, hfold, -⟩ := ReadError.bind_eq_ok_iff.1 hscan
  rw [hwords] at hfold
  obtain ⟨yard, hbefore, hfollowing⟩ := ReadError.foldlM_append_eq_ok_iff.1 hfold
  exact ⟨yard, hbefore, Yard.steady_of_foldlM_step hbefore hfollowing⟩

/-- The phrase `8-(4-2*3)-1`, whose chains of sums group to the right; inside its group a product
waits above a difference, and below the group the difference in front of it. -/
theorem toPostfixWords_phrase_steadily_of_group :
    let phrase : Phrase 1 :=
      .chain (.chain (.chain (.numeral "8" (by decide)) .nil) .nil)
        (.cons "-" .sub .minus (.chain (.chain (.group (.chain
            (.chain (.chain (.numeral "4" (by decide)) .nil) .nil)
            (.cons "-" .sub .minus (.chain (.chain (.numeral "2" (by decide)) .nil)
              (.cons "*" .mul .times (.chain (.numeral "3" (by decide)) .nil) .nil))
              .nil))) .nil) .nil)
          (.cons "-" .sub .minus (.chain (.chain (.numeral "1" (by decide)) .nil) .nil) .nil))
    phrase.words = ["8", "-", "(", "4", "-", "2", "*"] ++ ["3", ")", "-", "1"] ∧
      toPostfixWords phrase.words = .ok ["8", "4", "2", "3", "*", "-", "1", "-", "-"] ∧
      ∃ yard yard', ["8", "-", "(", "4", "-", "2", "*"].foldlM Yard.step Yard.empty = .ok yard ∧
        yard.held = [.operator .mul, .operator .sub, .opening, .operator .sub] ∧
        ["3", ")"].foldlM Yard.step yard = .ok yard' ∧ yard'.held = [.operator .sub] := by
  intro phrase
  have hwords : phrase.words = ["8", "-", "(", "4", "-", "2", "*"] ++ ["3", ")", "-", "1"] := by
    decide
  obtain ⟨htree, hmoments⟩ := toPostfixWords_phrase_steadily phrase
  obtain ⟨yard, hbefore, hsteady⟩ := hmoments _ _ hwords
  have hheld : yard.held = [.operator .mul, .operator .sub, .opening, .operator .sub] := by
    cases hbefore
    rfl
  have hbalanced : Balanced ["3"] := .other (by decide) (by decide) .nil
  obtain ⟨yard', hclosed, hheld'⟩ :=
    hsteady.remains [.mul, .sub] [.operator .sub] hheld ["3"] ["-", "1"] rfl hbalanced
  exact ⟨hwords, htree, yard, yard', hbefore, hheld, hclosed, hheld'⟩

end ArithTree.Infix
