import ArithTree.Proofs.InfixGrammar

/-! Parentheses, and what is wrong with words that are not rearranged. The scan goes from the last
word to the first, so at every moment the groups that wait in the yard are the closing parentheses
without an opening one in the words read so far; it is refused at an opening parenthesis that finds
none, at a word that is no lexeme, or in the end for the groups that still wait. Main statement:
words are rearranged exactly when they are lexemes and balanced, and otherwise the words behind the
last one that is no lexeme decide which error there is. -/

namespace ArithTree.Infix

variable {words rest : List String} {word : String} {n : Nat}

/-! ### Balance -/

/-- Every parenthesis has its partner; all other words stand where they like. -/
inductive Balanced : List String → Prop
  | nil : Balanced []
  | other {word : String} {words : List String} (notOpening : word ≠ "(") (notClosing : word ≠ ")")
      (rest : Balanced words) : Balanced (word :: words)
  | group {inner words : List String} (inside : Balanced inner) (rest : Balanced words) :
      Balanced ("(" :: (inner ++ ")" :: words))

/-- The words up to a closing parenthesis are balanced, so it belongs to what is open before. -/
def Closes (words : List String) : Prop :=
  ∃ inner rest, Balanced inner ∧ words = inner ++ ")" :: rest

/-- Some opening parenthesis has no partner among the words. -/
def HasUnclosed (words : List String) : Prop :=
  ∃ before after, words = before ++ "(" :: after ∧ ¬Closes after

/-- How many closing parentheses have no partner, if all opening ones have theirs. -/
def unopened? : List String → Option Nat
  | [] => some 0
  | word :: words =>
    match unopened? words with
    | none => none
    | some n =>
      if word = ")" then some (n + 1)
      else if word = "(" then
        match n with
        | 0 => none
        | n + 1 => some n
      else some n

theorem unopened?_closing (words : List String) :
    unopened? (")" :: words) = (unopened? words).map (· + 1) := by
  rw [unopened?]
  cases unopened? words <;> rfl

theorem unopened?_word (hopening : word ≠ "(") (hclosing : word ≠ ")") (words : List String) :
    unopened? (word :: words) = unopened? words := by
  rw [unopened?]
  cases unopened? words <;> simp [hopening, hclosing]

theorem unopened?_opening_of_succ (h : unopened? words = some (n + 1)) :
    unopened? ("(" :: words) = some n := by
  simp [unopened?, h]

theorem unopened?_opening_of_zero (h : unopened? words = some 0) :
    unopened? ("(" :: words) = none := by
  simp [unopened?, h]

theorem unopened?_cons_of_none (h : unopened? words = none) (word : String) :
    unopened? (word :: words) = none := by
  simp [unopened?, h]

theorem Balanced.unopened?_append {inner : List String} (h : Balanced inner) (rest : List String) :
    unopened? (inner ++ rest) = unopened? rest := by
  induction h generalizing rest with
  | nil => rfl
  | other notOpening notClosing _ ih =>
    rw [List.cons_append, unopened?_word notOpening notClosing, ih]
  | @group inner words _ _ ihinner ihwords =>
    have hinner : unopened? (inner ++ ")" :: (words ++ rest)) = (unopened? rest).map (· + 1) := by
      rw [ihinner, unopened?_closing, ihwords]
    rw [List.cons_append, List.append_assoc, List.cons_append]
    cases hrest : unopened? rest with
    | none => exact unopened?_cons_of_none (by simp [hinner, hrest]) _
    | some n => exact unopened?_opening_of_succ (by simp [hinner, hrest])

/-- The words are balanced but for so many closing parentheses. -/
def BalancedUpTo : Nat → List String → Prop
  | 0, words => Balanced words
  | n + 1, words =>
    ∃ inner rest, Balanced inner ∧ BalancedUpTo n rest ∧ words = inner ++ ")" :: rest

theorem BalancedUpTo.other (hopening : word ≠ "(") (hclosing : word ≠ ")")
    (h : BalancedUpTo n words) : BalancedUpTo n (word :: words) := by
  cases n with
  | zero => exact Balanced.other hopening hclosing h
  | succ n =>
    obtain ⟨inner, rest, hinner, hrest, rfl⟩ := h
    exact ⟨word :: inner, rest, hinner.other hopening hclosing, hrest, rfl⟩

/-- The first closing parenthesis without a partner gets one. -/
theorem BalancedUpTo.opening (h : BalancedUpTo (n + 1) words) : BalancedUpTo n ("(" :: words) := by
  obtain ⟨inner, rest, hinner, hrest, rfl⟩ := h
  cases n with
  | zero => exact Balanced.group hinner hrest
  | succ n =>
    obtain ⟨inner', rest, hinner', hrest, rfl⟩ := hrest
    exact ⟨_, rest, hinner.group hinner', hrest, by simp⟩

theorem balancedUpTo_of_unopened? (h : unopened? words = some n) : BalancedUpTo n words := by
  induction words generalizing n with
  | nil =>
    obtain rfl := Option.some.inj h
    exact Balanced.nil
  | cons word words ih =>
    by_cases hclosing : word = ")"
    · rw [hclosing, unopened?_closing, Option.map_eq_some_iff] at h
      obtain ⟨n, hn, rfl⟩ := h
      exact ⟨[], words, .nil, ih hn, by rw [hclosing]; rfl⟩
    by_cases hopening : word = "("
    · subst hopening
      cases hn : unopened? words with
      | none => simp [unopened?_cons_of_none hn] at h
      | some m =>
        cases m with
        | zero => simp [unopened?_opening_of_zero hn] at h
        | succ m =>
          rw [unopened?_opening_of_succ hn, Option.some.injEq] at h
          exact (h ▸ ih hn).opening
    · rw [unopened?_word hopening hclosing] at h
      exact (ih h).other hopening hclosing

theorem unopened?_eq_zero_iff : unopened? words = some 0 ↔ Balanced words := by
  constructor
  · exact balancedUpTo_of_unopened?
  · intro h
    have happend := h.unopened?_append []
    rwa [List.append_nil] at happend

/-- A closing parenthesis finds what is open before exactly when one has no partner. -/
theorem closes_iff (h : unopened? words = some n) : Closes words ↔ n ≠ 0 := by
  constructor
  · rintro ⟨inner, rest, hinner, rfl⟩ rfl
    rw [hinner.unopened?_append, unopened?_closing, Option.map_eq_some_iff] at h
    obtain ⟨m, -, hm⟩ := h
    exact Nat.succ_ne_zero m hm
  · intro hn
    obtain ⟨m, rfl⟩ := Nat.exists_eq_succ_of_ne_zero hn
    obtain ⟨inner, rest, hinner, -, hwords⟩ := balancedUpTo_of_unopened? h
    exact ⟨inner, rest, hinner, hwords⟩

theorem HasUnclosed.cons (h : HasUnclosed words) (word : String) : HasUnclosed (word :: words) := by
  obtain ⟨before, after, rfl, hafter⟩ := h
  exact ⟨word :: before, after, rfl, hafter⟩

theorem unopened?_eq_none_iff : unopened? words = none ↔ HasUnclosed words := by
  constructor
  · intro h
    induction words with
    | nil => cases h
    | cons word words ih =>
      cases hn : unopened? words with
      | none => exact (ih hn).cons word
      | some n =>
        by_cases hclosing : word = ")"
        · simp [hclosing, unopened?_closing, hn] at h
        by_cases hopening : word = "("
        · subst hopening
          refine ⟨[], words, rfl, fun hcloses => ?_⟩
          obtain ⟨m, rfl⟩ := Nat.exists_eq_succ_of_ne_zero ((closes_iff hn).1 hcloses)
          simp [unopened?_opening_of_succ hn] at h
        · simp [unopened?_word hopening hclosing, hn] at h
  · rintro ⟨before, after, rfl, hafter⟩
    have hopening : unopened? ("(" :: after) = none := by
      cases hn : unopened? after with
      | none => exact unopened?_cons_of_none hn _
      | some n =>
        obtain rfl := not_not.1 fun hne => hafter ((closes_iff hn).2 hne)
        exact unopened?_opening_of_zero hn
    induction before with
    | nil => exact hopening
    | cons word before ih => exact unopened?_cons_of_none ih word

instance (words : List String) : Decidable (Balanced words) :=
  decidable_of_iff _ unopened?_eq_zero_iff

instance (words : List String) : Decidable (HasUnclosed words) :=
  decidable_of_iff _ unopened?_eq_none_iff

/-! ### What waits in the yard -/

namespace Yard

variable {yard yard' : Yard}

/-- The groups that are open. -/
def openings (yard : Yard) : Nat := yard.held.count .opening

theorem openings_receive (op : Operator) (emitted : List String) (held : List Held) :
    (receive op emitted held).openings = held.count .opening := by
  induction held generalizing emitted with
  | nil => rfl
  | cons entry held ih =>
    cases entry with
    | opening => rfl
    | operator top =>
      rw [receive]
      split
      · rw [ih, List.count_cons_of_ne (by simp)]
      · rfl

/-- A closing parenthesis closes the innermost of the open groups, if there is one. -/
theorem close_eq (emitted : List String) (held : List Held) :
    (held.count .opening = 0 ∧ close emitted held = .error .unmatchedParenthesis) ∨
      ∃ yard, close emitted held = .ok yard ∧ yard.openings + 1 = held.count .opening := by
  induction held generalizing emitted with
  | nil => exact .inl ⟨rfl, rfl⟩
  | cons entry held ih =>
    cases entry with
    | opening => exact .inr ⟨⟨emitted, held⟩, rfl, by simp [openings]⟩
    | operator top =>
      rw [List.count_cons_of_ne (by simp)]
      exact ih _

theorem drain_eq (emitted : List String) (held : List Held) :
    (held.count .opening = 0 ∧ ∃ out, drain emitted held = .ok out) ∨
      held.count .opening ≠ 0 ∧ drain emitted held = .error .unmatchedParenthesis := by
  induction held generalizing emitted with
  | nil => exact .inl ⟨rfl, emitted, rfl⟩
  | cons entry held ih =>
    cases entry with
    | opening => exact .inr ⟨by simp, rfl⟩
    | operator top =>
      rw [List.count_cons_of_ne (by simp)]
      exact ih _

theorem step_of_not_isLexeme (h : ¬Lexeme.IsLexeme word) (yard : Yard) :
    yard.step word = .error (.unexpectedWord word) := by
  simp only [Lexeme.IsLexeme, not_or, not_exists] at h
  obtain ⟨hnumeral, hopening, hclosing, hsymbol⟩ := h
  cases hop : Operator.ofSymbol? word with
  | none => simp [step, hnumeral, hopening, hclosing, hop]
  | some op => exact absurd (Operator.ofSymbol?_eq_some_iff.1 hop).symm (hsymbol op)

/-- A word that is neither parenthesis leaves the open groups as they are. -/
theorem exists_step_of_isLexeme (h : Lexeme.IsLexeme word) (hopening : word ≠ "(")
    (hclosing : word ≠ ")") (yard : Yard) :
    ∃ yard', yard.step word = .ok yard' ∧ yard'.openings = yard.openings := by
  rcases h with hnumeral | rfl | rfl | ⟨op, rfl⟩
  · exact ⟨_, step_numeral hnumeral yard, rfl⟩
  · exact absurd rfl hopening
  · exact absurd rfl hclosing
  · exact ⟨_, step_symbol op yard, openings_receive op yard.emitted yard.held⟩

end Yard

/-! ### Scans of lexemes -/

theorem foldlM_step_backwards_cons (word : String) (words : List String) (yard : Yard) :
    (backwards (word :: words)).foldlM Yard.step yard =
      (backwards words).foldlM Yard.step yard >>= fun between => between.step (facing word) := by
  simp [backwards, List.foldlM_append]

/-- What is open in the yard is what has not been opened in the words, and the scan is refused where
an opening parenthesis has no partner. -/
theorem foldlM_step_backwards_cases (h : ∀ word ∈ words, Lexeme.IsLexeme word) :
    (∃ yard, (backwards words).foldlM Yard.step Yard.empty = .ok yard ∧
        unopened? words = some yard.openings) ∨
      (backwards words).foldlM Yard.step Yard.empty = .error .unmatchedParenthesis ∧
        unopened? words = none := by
  induction words with
  | nil => exact .inl ⟨Yard.empty, rfl, rfl⟩
  | cons word words ih =>
    obtain ⟨hword, hwords⟩ := List.forall_mem_cons.1 h
    rw [foldlM_step_backwards_cons]
    rcases ih hwords with ⟨yard, hfold, hn⟩ | ⟨hfold, hn⟩
    · rw [hfold, ReadError.ok_bind]
      by_cases hclosing : word = ")"
      · have hfacing : facing word = "(" := by rw [hclosing]; rfl
        rw [hfacing, Yard.step_opening, hclosing, unopened?_closing, hn]
        exact .inl ⟨_, rfl, by simp [Yard.openings]⟩
      by_cases hopening : word = "("
      · have hfacing : facing word = ")" := by rw [hopening]; rfl
        rw [hfacing, Yard.step_closing, hopening]
        rcases Yard.close_eq yard.emitted yard.held with ⟨hzero, hclose⟩ | ⟨closed, hclose, hsucc⟩
        · exact .inr ⟨hclose, unopened?_opening_of_zero (hn.trans (congrArg some hzero))⟩
        · rw [unopened?_opening_of_succ (hn.trans (congrArg some hsucc.symm))]
          exact .inl ⟨closed, hclose, rfl⟩
      · have hfacing : facing word = word := by simp [facing, hopening, hclosing]
        obtain ⟨next, hstep, hopenings⟩ :=
          Yard.exists_step_of_isLexeme hword hopening hclosing yard
        rw [hfacing, unopened?_word hopening hclosing, hn]
        exact .inl ⟨next, hstep, congrArg some hopenings.symm⟩
    · rw [hfold, ReadError.error_bind]
      exact .inr ⟨rfl, unopened?_cons_of_none hn word⟩

theorem toPrefixWords_of_isLexeme (h : ∀ word ∈ words, Lexeme.IsLexeme word) :
    Balanced words ∧ (∃ moved, toPrefixWords words = .ok moved) ∨
      ¬Balanced words ∧ toPrefixWords words = .error .unmatchedParenthesis := by
  rw [← unopened?_eq_zero_iff, toPrefixWords, scan]
  rcases foldlM_step_backwards_cases h with ⟨yard, hfold, hn⟩ | ⟨hfold, hn⟩
  · rw [hfold, ReadError.ok_bind, hn]
    rcases Yard.drain_eq yard.emitted yard.held with ⟨hzero, hdrain⟩ | ⟨hne, hdrain⟩
    · exact .inl ⟨congrArg some hzero, hdrain⟩
    · exact .inr ⟨fun hzero => hne (Option.some.inj hzero), hdrain⟩
  · rw [hfold, ReadError.error_bind, hn]
    exact .inr ⟨by simp, rfl⟩

/-- The scan comes to the last word that is no lexeme after the words behind it. -/
theorem toPrefixWords_of_not_isLexeme {before after : List String} {bad : String}
    (hbad : ¬Lexeme.IsLexeme bad) (hafter : ∀ word ∈ after, Lexeme.IsLexeme word) :
    toPrefixWords (before ++ bad :: after) =
      .error (if HasUnclosed after then .unmatchedParenthesis else .unexpectedWord bad) := by
  have hsplit : backwards (before ++ bad :: after) =
      backwards (bad :: after) ++ backwards before := by simp [backwards]
  have hfacing : facing bad = bad := by
    have hopening : bad ≠ "(" := fun h => hbad (.inr (.inl h))
    have hclosing : bad ≠ ")" := fun h => hbad (.inr (.inr (.inl h)))
    simp [facing, hopening, hclosing]
  rw [toPrefixWords, scan, hsplit, List.foldlM_append, foldlM_step_backwards_cons, hfacing]
  rcases foldlM_step_backwards_cases hafter with ⟨yard, hfold, hn⟩ | ⟨hfold, hn⟩
  · have hclosed : ¬HasUnclosed after := by simp [← unopened?_eq_none_iff, hn]
    rw [hfold, ReadError.ok_bind, Yard.step_of_not_isLexeme hbad, if_neg hclosed]
    rfl
  · rw [hfold, if_pos (unopened?_eq_none_iff.1 hn)]
    rfl

theorem exists_last_not_isLexeme (h : ¬∀ word ∈ words, Lexeme.IsLexeme word) :
    ∃ before bad after, words = before ++ bad :: after ∧ ¬Lexeme.IsLexeme bad ∧
      ∀ word ∈ after, Lexeme.IsLexeme word := by
  induction words with
  | nil => simp at h
  | cons word words ih =>
    by_cases hwords : ∀ word ∈ words, Lexeme.IsLexeme word
    · have hword : ¬Lexeme.IsLexeme word := fun hword => h (List.forall_mem_cons.2 ⟨hword, hwords⟩)
      exact ⟨[], word, words, rfl, hword, hwords⟩
    · obtain ⟨before, bad, after, rfl, hbad, hafter⟩ := ih hwords
      exact ⟨word :: before, bad, after, rfl, hbad, hafter⟩

/-- Words are rearranged exactly when they are lexemes and their parentheses are balanced. Lexemes
that are not balanced are refused for a parenthesis. If some word is no lexeme, the error is an
opening parenthesis without a partner behind the last such word, or else that word. -/
theorem toPrefixWords_outcome_of_parentheses (words : List String) :
    ((∃ moved, toPrefixWords words = .ok moved) ↔
        (∀ word ∈ words, Lexeme.IsLexeme word) ∧ Balanced words) ∧
      ((∀ word ∈ words, Lexeme.IsLexeme word) → ¬Balanced words →
        toPrefixWords words = .error .unmatchedParenthesis) ∧
      ∀ before bad after, words = before ++ bad :: after → ¬Lexeme.IsLexeme bad →
        (∀ word ∈ after, Lexeme.IsLexeme word) →
        toPrefixWords words =
          .error (if HasUnclosed after then .unmatchedParenthesis else .unexpectedWord bad) := by
  refine ⟨⟨?_, ?_⟩, ?_, ?_⟩
  · rintro ⟨moved, hok⟩
    by_cases hlexemes : ∀ word ∈ words, Lexeme.IsLexeme word
    · rcases toPrefixWords_of_isLexeme hlexemes with ⟨hbalanced, -⟩ | ⟨-, herror⟩
      · exact ⟨hlexemes, hbalanced⟩
      · simp [herror] at hok
    · obtain ⟨before, bad, after, rfl, hbad, hafter⟩ := exists_last_not_isLexeme hlexemes
      simp [toPrefixWords_of_not_isLexeme hbad hafter] at hok
  · rintro ⟨hlexemes, hbalanced⟩
    exact ((toPrefixWords_of_isLexeme hlexemes).resolve_right fun h => h.1 hbalanced).2
  · intro hlexemes hbalanced
    exact ((toPrefixWords_of_isLexeme hlexemes).resolve_left fun h => hbalanced h.1).2
  · rintro before bad after rfl hbad hafter
    exact toPrefixWords_of_not_isLexeme hbad hafter

/-- A closing parenthesis too many, an opening one that stands behind a word that is no lexeme, and
one that stands in front of it. -/
theorem toPrefixWords_outcome_of_faults :
    ((∀ word ∈ ["(", "1", ")", "+", "2", ")"], Lexeme.IsLexeme word) ∧
        ¬Balanced ["(", "1", ")", "+", "2", ")"] ∧
        toPrefixWords ["(", "1", ")", "+", "2", ")"] = .error .unmatchedParenthesis) ∧
      (¬Lexeme.IsLexeme "-5" ∧ HasUnclosed [")", "(", "+"] ∧
        toPrefixWords ["x", "1", "-5", ")", "(", "+"] = .error .unmatchedParenthesis) ∧
      ¬HasUnclosed [")", "(", ")"] ∧
        toPrefixWords ["x", "(", "-5", ")", "(", ")"] = .error (.unexpectedWord "-5") := by
  have hlexemes : ∀ word ∈ ["(", "1", ")", "+", "2", ")"], Lexeme.IsLexeme word := by decide
  have hbalanced : ¬Balanced ["(", "1", ")", "+", "2", ")"] := by decide
  have hbad : ¬Lexeme.IsLexeme "-5" := by decide
  have hopen : HasUnclosed [")", "(", "+"] := by decide
  have hclosed : ¬HasUnclosed [")", "(", ")"] := by decide
  refine ⟨⟨hlexemes, hbalanced, ?_⟩, ⟨hbad, hopen, ?_⟩, hclosed, ?_⟩
  · exact (toPrefixWords_outcome_of_parentheses _).2.1 hlexemes hbalanced
  · have houtcome := (toPrefixWords_outcome_of_parentheses _).2.2 ["x", "1"] "-5" [")", "(", "+"]
      rfl hbad (by decide)
    rwa [if_pos hopen] at houtcome
  · have houtcome := (toPrefixWords_outcome_of_parentheses _).2.2 ["x", "("] "-5" [")", "(", ")"]
      rfl hbad (by decide)
    rwa [if_neg hclosed] at houtcome

end ArithTree.Infix
