import Mathlib.Logic.ExistsUnique
import ArithTree.Proofs.PrefixWords

/-! Reading as a scan. Before the first word one operand is owed, at nesting 0. A word pays the
latest debt, and an operator leaves two in its place, each nested once more. The scan ends at the
first word that cannot pay, at the first word after the last debt, or where the words end in debt.
Main statement: reading fails with the first of these events, and where there is none it gives the
one tree whose words are those read, but for leading zeros. -/

namespace ArithTree

/-! ### Leading zeros -/

namespace Numeral

/-- A numeral without leading zeros, of which zero keeps one; any other word as it is. -/
def withoutZeros (word : String) : String :=
  if isNumeral word then
    match word.toList.dropWhile (· == '0') with
    | [] => "0"
    | digits => String.ofList digits
  else word

theorem ofDigitChars_dropWhile_zero (cs : List Char) :
    Nat.ofDigitChars 10 (cs.dropWhile (· == '0')) 0 = Nat.ofDigitChars 10 cs 0 := by
  induction cs with
  | nil => rfl
  | cons c cs ih =>
    by_cases hc : c = '0'
    · rw [List.dropWhile_cons_of_pos (by simp [hc]), ih, Nat.ofDigitChars_cons, hc]
      rfl
    · rw [List.dropWhile_cons_of_neg (by simp [hc])]

theorem exists_digitChar_of_isDigit {c : Char} (h : c.isDigit = true) :
    ∃ d < 10, c = d.digitChar ∧ c.toNat - '0'.toNat = d := by
  have hrange : 48 ≤ c.toNat ∧ c.toNat ≤ 57 := Char.isDigit_iff_toNat.1 h
  have hdigits : ∀ d < 10, Nat.digitChar d = Char.ofNat (48 + d) := by decide
  refine ⟨c.toNat - 48, by omega, ?_, rfl⟩
  rw [hdigits _ (by omega), Nat.add_sub_cancel' hrange.1, Char.ofNat_toNat]

/-- Digits that follow a positive number are the last digits of the number that they go on to. -/
theorem toDigits_ofDigitChars_of_pos {cs : List Char} (hcs : ∀ c ∈ cs, c.isDigit = true) {n : Nat}
    (hn : 0 < n) : Nat.toDigits 10 (Nat.ofDigitChars 10 cs n) = Nat.toDigits 10 n ++ cs := by
  induction cs generalizing n with
  | nil => simp
  | cons c cs ih =>
    obtain ⟨d, hd, rfl, hvalue⟩ := exists_digitChar_of_isDigit (hcs c (by simp))
    rw [Nat.ofDigitChars_cons, hvalue, ih (fun c hc => hcs c (by simp [hc])) (by omega),
      ← Nat.toDigits_append_toDigits (by decide) hn hd, Nat.toDigits_of_lt_base hd,
      List.append_assoc, List.singleton_append]

theorem withoutZeros_of_isNumeral {word : String} (h : isNumeral word = true) :
    withoutZeros word = (value word).repr := by
  have hdigits : ∀ c ∈ word.toList.dropWhile (· == '0'), c.isDigit = true := by
    simp only [isNumeral, Bool.and_eq_true, List.all_eq_true] at h
    exact fun c hc => h.2 c ((List.dropWhile_suffix _).subset hc)
  have hvalue : value word = Nat.ofDigitChars 10 (word.toList.dropWhile (· == '0')) 0 :=
    (ofDigitChars_dropWhile_zero _).symm
  have hhead := List.head?_dropWhile_not (· == '0') word.toList
  rw [withoutZeros, if_pos h, hvalue]
  generalize word.toList.dropWhile (· == '0') = digits at hdigits hhead ⊢
  rcases digits with _ | ⟨c, cs⟩
  · rfl
  · obtain ⟨hc, hcs⟩ := List.forall_mem_cons.1 hdigits
    obtain ⟨d, hd, rfl, hfirst⟩ := exists_digitChar_of_isDigit hc
    have hpos : 0 < d := Nat.pos_of_ne_zero fun hzero => by simp [hzero] at hhead
    apply String.toList_inj.1
    rw [String.toList_ofList, Nat.toList_repr, Nat.ofDigitChars_cons, hfirst, Nat.mul_zero,
      Nat.zero_add, toDigits_ofDigitChars_of_pos hcs hpos, Nat.toDigits_of_lt_base hd,
      List.singleton_append]

end Numeral

namespace Expr

/-- Only the kept results of a tree are not in its words. -/
theorem cleared_eq_of_prefixWords_eq {e e' : Expr} (h : e.prefixWords = e'.prefixWords) :
    e.cleared = e'.cleared := by
  rw [← prefixWords_wordTree, ← prefixWords_wordTree] at h
  have htree := WordTree.prefixWords_injective h
  clear h
  induction e generalizing e' with
  | literal v =>
    cases e' with
    | literal w =>
      simp only [wordTree, WordTree.operand.injEq] at htree
      rw [Numeral.text_injective htree]
    | binary op left right result => cases htree
  | binary op left right result ihl ihr =>
    cases e' with
    | literal w => cases htree
    | binary op' left' right' result' =>
      simp only [wordTree, WordTree.node.injEq] at htree
      simp only [cleared, htree.1, ihl htree.2.1, ihr htree.2.2]

end Expr

/-- The tree that words denote is written with their numerals, but for leading zeros. -/
theorem WordTree.prefixWords_toExpr {t : WordTree}
    (h : ∀ word ∈ t.operands, Numeral.IsLiteral word) :
    t.toExpr.prefixWords = t.prefixWords.map Numeral.withoutZeros := by
  induction t with
  | operand word hw =>
    have hliteral := h word (by simp [operands])
    have hvalue := hliteral.toInt_ofNat_value
    simp only [toExpr, Expr.prefixWords, prefixWords, List.map_cons, List.map_nil,
      Numeral.withoutZeros_of_isNumeral hliteral.isNumeral]
    rw [Expr.text_of_nonneg (by omega), hvalue, Int.toNat_natCast]
  | node op left right ihl ihr =>
    simp only [operands, List.mem_append] at h
    have hsymbol : Numeral.withoutZeros op.symbol = op.symbol := by
      simp [Numeral.withoutZeros, Numeral.isNumeral_symbol]
    simp [toExpr, Expr.node, Expr.prefixWords, prefixWords, hsymbol,
      ihl fun word hw => h word (.inl hw), ihr fun word hw => h word (.inr hw)]

namespace Prefix

/-! ### The scan -/

/-- What is owed after one more word: the nesting of every operand that has not been read, the
latest first. -/
def pay : List Nat → String → List Nat
  | [], _ => []
  | nesting :: owed, word =>
    match Operator.ofSymbol? word with
    | some _ => (nesting + 1) :: (nesting + 1) :: owed
    | none => owed

/-- What ends a scan in front of the words that are left, if anything does. -/
def event? : List Nat → List String → Option ReadError
  | [], [] => none
  | [], word :: _ => some (.trailingWord word)
  | _ :: _, [] => some .unexpectedEnd
  | nesting :: _, word :: _ =>
    match Operator.ofSymbol? word with
    | some _ => if nesting = 1000 then some .nestingTooDeep else none
    | none =>
      if Numeral.isNumeral word = false then some (.unexpectedWord word)
      else if 2147483647 < Numeral.value word then some (.literalOutOfRange word)
      else none

/-- The first event of a scan, from before the first word to after the last one. -/
def firstEvent? (owed : List Nat) (words : List String) : Option ReadError :=
  (List.range (words.length + 1)).findSome? fun k =>
    event? ((words.take k).foldl pay owed) (words.drop k)

theorem firstEvent?_nil (owed : List Nat) : firstEvent? owed [] = event? owed [] := by
  simp [firstEvent?]

theorem firstEvent?_cons (owed : List Nat) (word : String) (words : List String) :
    firstEvent? owed (word :: words) =
      (event? owed (word :: words)).or (firstEvent? (pay owed word) words) := by
  rw [firstEvent?, List.length_cons, List.range_succ_eq_map, List.findSome?_cons,
    List.findSome?_map]
  cases h : event? owed (word :: words) with
  | some cause => simp [h]
  | none => simp [h, firstEvent?, Function.comp_def]

/-- The first event of a scan from where one tree has been read. -/
def eventAfter (owed : List Nat) : Except ReadError (Expr × List String) → Option ReadError
  | .ok (_, rest) => firstEvent? owed rest
  | .error cause => some cause

/-- A word that is no operator pays if it is a literal. -/
theorem firstEvent?_operand {word : String} (hw : Operator.ofSymbol? word = none)
    (room nesting : Nat) (owed : List Nat) (words : List String) :
    firstEvent? (nesting :: owed) (word :: words) =
      eventAfter owed (readNode room (word :: words)) := by
  rw [readNode_operand hw, firstEvent?_cons, pay, event?, hw]
  unfold Numeral.read
  cases hnumeral : Numeral.isNumeral word with
  | false => rfl
  | true =>
    cases hvalue : Word32.ofInt? (Numeral.value word) with
    | none =>
      have hlarge : 2147483647 < Numeral.value word := by
        have := Word32.ofInt?_eq_none_iff.1 hvalue
        omega
      simp [hlarge, Except.map, eventAfter]
    | some v =>
      have hsmall : ¬2147483647 < Numeral.value word := by
        have hv := Word32.ofInt?_eq_some_iff.1 hvalue
        have hlt := Int32.toInt_lt v
        omega
      simp [hsmall, Except.map, eventAfter]

theorem firstEvent?_symbol_of_lt {nesting : Nat} (h : nesting < 1000) (op : Operator)
    (owed : List Nat) (words : List String) :
    firstEvent? (nesting :: owed) (op.symbol :: words) =
      firstEvent? ((nesting + 1) :: (nesting + 1) :: owed) words := by
  simp [firstEvent?_cons, event?, pay, Nat.ne_of_lt h]

theorem firstEvent?_symbol_deepest (op : Operator) (owed : List Nat) (words : List String) :
    firstEvent? (1000 :: owed) (op.symbol :: words) = some .nestingTooDeep := by
  simp [firstEvent?_cons, event?]

/-- Reading one tree pays the latest debt: the scan goes on behind the tree with what was owed
besides, or the first event of the scan is why there is no tree. -/
theorem firstEvent?_eq_eventAfter {room nesting : Nat} (h : nesting + room = 1000)
    (owed : List Nat) (words : List String) :
    firstEvent? (nesting :: owed) words = eventAfter owed (readNode room words) := by
  induction room generalizing nesting owed words with
  | zero =>
    rcases words with _ | ⟨word, words⟩
    · simp [readNode_nil, firstEvent?_nil, event?, eventAfter]
    cases hop : Operator.ofSymbol? word with
    | none => exact firstEvent?_operand hop 0 nesting owed words
    | some op =>
      obtain rfl := Operator.ofSymbol?_eq_some_iff.1 hop
      obtain rfl : nesting = 1000 := h
      rw [firstEvent?_symbol_deepest, readNode_symbol_zero, eventAfter]
  | succ room ih =>
    rcases words with _ | ⟨word, words⟩
    · simp [readNode_nil, firstEvent?_nil, event?, eventAfter]
    cases hop : Operator.ofSymbol? word with
    | none => exact firstEvent?_operand hop (room + 1) nesting owed words
    | some op =>
      obtain rfl := Operator.ofSymbol?_eq_some_iff.1 hop
      have hnext : nesting + 1 + room = 1000 := by omega
      -- the left operand pays one of the two new debts, and the right one the other
      rw [firstEvent?_symbol_of_lt (by omega), ih hnext, readNode_symbol_succ]
      rcases readNode room words with cause | ⟨left, middle⟩
      · rfl
      · rw [ReadError.ok_bind, eventAfter, ih hnext]
        cases hright : readNode room middle with
        | error cause => simp [hright, eventAfter]
        | ok right => simp [hright, eventAfter]

theorem firstEvent?_eq_none_or_some (words : List String) :
    firstEvent? [0] words = none ∧ (∃ e, read words = .ok e) ∨
      ∃ cause, firstEvent? [0] words = some cause ∧ read words = .error cause := by
  have hroom : 0 + maxNesting = 1000 := rfl
  rw [firstEvent?_eq_eventAfter hroom, read]
  cases readNode maxNesting words with
  | error cause => exact .inr ⟨cause, rfl, rfl⟩
  | ok tree =>
    obtain ⟨root, _ | ⟨extra, rest⟩⟩ := tree
    · exact .inl ⟨by simp [eventAfter, firstEvent?_nil, event?], root, rfl⟩
    · exact .inr ⟨.trailingWord extra, by simp [eventAfter, firstEvent?_cons, event?], rfl⟩

/-! ### What is read -/

variable {words : List String} {e : Expr}

theorem prefixWords_of_read (h : read words = .ok e) :
    e.cleared = e ∧ e.prefixWords = words.map Numeral.withoutZeros := by
  obtain ⟨t, ht, rfl, rfl⟩ := read_eq_ok_iff.1 h
  exact ⟨t.cleared_toExpr, WordTree.prefixWords_toExpr ht.literals⟩

/-- Reading fails with the first event of the scan. Without an event it gives the tree whose words
are those read without leading zeros, and there is one such tree. -/
theorem read_ends_at_first_event (words : List String) :
    (∀ cause, read words = .error cause ↔ firstEvent? [0] words = some cause) ∧
      (∀ e, read words = .ok e ↔ firstEvent? [0] words = none ∧
        (∀ v ∈ e.results, v = 0) ∧ e.prefixWords = words.map Numeral.withoutZeros) ∧
      (firstEvent? [0] words = none → ∃! e : Expr,
        (∀ v ∈ e.results, v = 0) ∧ e.prefixWords = words.map Numeral.withoutZeros) := by
  simp only [← Expr.cleared_eq_self_iff]
  have hsame : ∀ {e e' : Expr}, e.cleared = e ∧ e.prefixWords = words.map Numeral.withoutZeros →
      e'.cleared = e' ∧ e'.prefixWords = words.map Numeral.withoutZeros → e = e' := by
    rintro e e' ⟨hcleared, hwords⟩ ⟨hcleared', hwords'⟩
    rw [← hcleared, ← hcleared']
    exact Expr.cleared_eq_of_prefixWords_eq (hwords.trans hwords'.symm)
  rcases firstEvent?_eq_none_or_some words with ⟨hnone, e, hread⟩ | ⟨cause, hsome, hread⟩
  · have he := prefixWords_of_read hread
    refine ⟨by simp [hread, hnone], fun e' => ?_, fun _ => ⟨e, he, fun e' he' => hsame he' he⟩⟩
    rw [hread, Except.ok.injEq, and_iff_right hnone]
    constructor
    · rintro rfl
      exact he
    · exact hsame he
  · refine ⟨fun cause' => by simp [hread, hsome], fun e' => ?_, ?_⟩
    · simp [hread, hsome]
    · simp [hsome]

/-- Zeros in front, and a zero that is all there is. -/
theorem read_ends_at_first_event_of_zeros :
    firstEvent? [0] ["-", "007", "/", "000", "2147483647"] = none ∧
      ∃! e : Expr, (∀ v ∈ e.results, v = 0) ∧
        e.prefixWords =
          ["-", "007", "/", "000", "2147483647"].map Numeral.withoutZeros := by
  have hnone : firstEvent? [0] ["-", "007", "/", "000", "2147483647"] = none := by decide
  exact ⟨hnone, (read_ends_at_first_event _).2.2 hnone⟩

/-- Of three faults the second one comes first. -/
example : firstEvent? [0] ["*", "+", "2147483648", "x"] =
    some (.literalOutOfRange "2147483648") := by decide

end Prefix

end ArithTree
