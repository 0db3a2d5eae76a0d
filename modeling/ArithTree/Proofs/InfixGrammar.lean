import ArithTree.Proofs.Lexemes
import ArithTree.Proofs.WordTree
import ArithTree.Proofs.Yard

/-! The grammar of words with every operator between its operands. Level 1 is a chain of operands of
level 2 joined by sums and differences, level 2 one of level 3 joined by products, quotients and
remainders, level 3 one of level 4 joined by powers; an operand of level 4 is a numeral or a whole
expression in parentheses. The operators of a level are listed, and their precedence is that level.
Every chain groups to the left, so the tree of a phrase nests its operators on the left side. Main
statement: the words of a phrase are rearranged into those of its tree, whatever the phrase. -/

namespace ArithTree.Infix

/-- The operators that join the operands of a level, each with the word that stands for it. -/
inductive Joins : Nat → String → Operator → Prop
  | plus : Joins 1 "+" .add
  | minus : Joins 1 "-" .sub
  | times : Joins 2 "*" .mul
  | over : Joins 2 "/" .div
  | remainder : Joins 2 "%" .mod
  | power : Joins 3 "^" .pow

section Joins

variable {level : Nat} {word : String} {op : Operator}

theorem Joins.word_eq (h : Joins level word op) : word = op.symbol := by
  cases h <;> decide

theorem Joins.precedence_eq (h : Joins level word op) : op.precedence = level := by
  cases h <;> rfl

end Joins

/-- Every operator joins operands, at the level of its precedence. -/
theorem joins_symbol (op : Operator) : Joins op.precedence op.symbol op := by
  cases op with
  | add => exact .plus
  | sub => exact .minus
  | mul => exact .times
  | div => exact .over
  | pow => exact .power
  | mod => exact .remainder

mutual

/-- A derivation of the grammar, at the level of the operators that it joins. -/
inductive Phrase : Nat → Type
  | numeral (word : String) (isNumeral : Numeral.isNumeral word = true) : Phrase 4
  | group (inner : Phrase 1) : Phrase 4
  | chain {level : Nat} (first : Phrase (level + 1)) (links : Links level) : Phrase level

/-- The rest of a chain: operators of the level, each with its right operand. -/
inductive Links : Nat → Type
  | nil {level : Nat} : Links level
  | cons {level : Nat} (word : String) (op : Operator) (joins : Joins level word op)
      (operand : Phrase (level + 1)) (links : Links level) : Links level

end

mutual

def Phrase.words {level : Nat} : Phrase level → List String
  | .numeral word _ => [word]
  | .group inner => "(" :: (inner.words ++ [")"])
  | .chain first links => first.words ++ links.words

def Links.words {level : Nat} : Links level → List String
  | .nil => []
  | .cons word _ _ operand links => word :: (operand.words ++ links.words)

end

mutual

/-- The tree that a phrase denotes; parentheses leave no trace in it. -/
def Phrase.tree {level : Nat} : Phrase level → WordTree
  | .numeral word isNumeral => .operand word (Numeral.ofSymbol?_of_isNumeral isNumeral)
  | .group inner => inner.tree
  | .chain first links => links.treeAfter first.tree

/-- The tree of a chain whose part so far has the given tree. -/
def Links.treeAfter {level : Nat} : Links level → WordTree → WordTree
  | .nil, sofar => sofar
  | .cons _ op _ operand links, sofar => links.treeAfter (.node op sofar operand.tree)

end

/-! ### Reading backwards -/

theorem facing_of_isNumeral {word : String} (h : Numeral.isNumeral word = true) :
    facing word = word := by
  have hopening : word ≠ "(" := by
    rintro rfl
    exact absurd h (by decide)
  have hclosing : word ≠ ")" := by
    rintro rfl
    exact absurd h (by decide)
  simp [facing, hopening, hclosing]

theorem facing_symbol (op : Operator) : facing op.symbol = op.symbol := by
  cases op <;> decide

theorem backwards_group (words : List String) :
    backwards ("(" :: (words ++ [")"])) = "(" :: (backwards words ++ [")"]) := by
  simp [backwards, facing]

/-- Read backwards, the right operand comes first and is complete when the operator arrives. -/
theorem backwards_append_symbol_cons (words words' : List String) (op : Operator) :
    backwards (words ++ op.symbol :: words') =
      backwards words' ++ op.symbol :: backwards words := by
  simp [backwards, facing_symbol]

mutual

theorem Phrase.reads_backwards {level : Nat} : (phrase : Phrase level) →
    Yard.Reads level (backwards phrase.words) phrase.tree.prefixWords
  | .numeral word isNumeral => by
    have hself : backwards [word] = [word] := by simp [backwards, facing_of_isNumeral isNumeral]
    rw [Phrase.words, hself]
    exact Yard.reads_numeral isNumeral
  | .group inner => by
    rw [Phrase.words, backwards_group]
    exact Yard.reads_group inner.reads_backwards
  | .chain first links => by
    rw [Phrase.words]
    exact links.reads_backwards_after (first.reads_backwards.mono (Nat.le_succ _))

/-- The part of the chain so far is what the scan comes to last; the operator in front of a link
waits for it at the level of the chain. -/
theorem Links.reads_backwards_after {level : Nat} {words : List String} {sofar : WordTree} :
    (links : Links level) → Yard.Reads level (backwards words) sofar.prefixWords →
    Yard.Reads level (backwards (words ++ links.words)) (links.treeAfter sofar).prefixWords
  | .nil, h => by simpa [Links.words, Links.treeAfter] using h
  | .cons word op joins operand links, h => by
    have hlink : Yard.Reads level (backwards (words ++ word :: operand.words))
        (WordTree.node op sofar operand.tree).prefixWords := by
      rw [joins.word_eq, backwards_append_symbol_cons]
      exact Yard.reads_operator joins.precedence_eq operand.reads_backwards h
    have hrest := links.reads_backwards_after hlink
    rwa [List.append_assoc, List.cons_append] at hrest

end

theorem toPrefixWords_phrase {level : Nat} (phrase : Phrase level) :
    toPrefixWords phrase.words = .ok phrase.tree.prefixWords :=
  Yard.scan_of_reads phrase.reads_backwards

/-! ### Texts -/

/-- The words of a phrase one after the other, without a space. -/
def Phrase.text {level : Nat} (phrase : Phrase level) : String := String.join phrase.words

mutual

theorem Phrase.isLexeme {level : Nat} : (phrase : Phrase level) →
    ∀ word ∈ phrase.words, Lexeme.IsLexeme word
  | .numeral word isNumeral => by
    rw [Phrase.words]
    intro other hother
    rw [List.mem_singleton.1 hother]
    exact .inl isNumeral
  | .group inner => by
    have hinner := inner.isLexeme
    rw [Phrase.words]
    intro word hword
    simp only [List.mem_cons, List.mem_append, List.not_mem_nil, or_false] at hword
    rcases hword with rfl | hword | rfl
    · exact .inr (.inl rfl)
    · exact hinner word hword
    · exact .inr (.inr (.inl rfl))
  | .chain first links => by
    have hfirst := first.isLexeme
    have hlinks := links.isLexeme
    rw [Phrase.words]
    intro word hword
    rcases List.mem_append.1 hword with hword | hword
    · exact hfirst word hword
    · exact hlinks word hword

theorem Links.isLexeme {level : Nat} : (links : Links level) →
    ∀ word ∈ links.words, Lexeme.IsLexeme word
  | .nil => by simp [Links.words]
  | .cons word op joins operand links => by
    have hoperand := operand.isLexeme
    have hlinks := links.isLexeme
    rw [Links.words]
    intro other hother
    simp only [List.mem_cons, List.mem_append] at hother
    rcases hother with rfl | hother | hother
    · exact .inr (.inr (.inr ⟨op, joins.word_eq⟩))
    · exact hoperand other hother
    · exact hlinks other hother

end

/-- Some word of a phrase is a numeral. -/
theorem Phrase.exists_isNumeral {level : Nat} : (phrase : Phrase level) →
    ∃ word ∈ phrase.words, Numeral.isNumeral word = true
  | .numeral word isNumeral => ⟨word, by simp [Phrase.words], isNumeral⟩
  | .group inner => by
    obtain ⟨word, hword, hnumeral⟩ := inner.exists_isNumeral
    exact ⟨word, by simp [Phrase.words, hword], hnumeral⟩
  | .chain first links => by
    obtain ⟨word, hword, hnumeral⟩ := first.exists_isNumeral
    exact ⟨word, by simp [Phrase.words, hword], hnumeral⟩

mutual

/-- Numerals are never neighbours in a phrase. -/
theorem Phrase.isChain_apart {level : Nat} : (phrase : Phrase level) →
    phrase.words.IsChain Lexeme.Apart
  | .numeral word _ => by
    rw [Phrase.words]
    exact List.isChain_singleton word
  | .group inner => by
    have hclosed := Lexeme.isChain_apart_append_cons inner.isChain_apart List.isChain_nil
      (show Numeral.isNumeral ")" = false by decide)
    rw [Phrase.words]
    exact Lexeme.isChain_apart_append_cons List.isChain_nil hclosed
      (show Numeral.isNumeral "(" = false by decide)
  | .chain first links => by
    rw [Phrase.words]
    exact links.isChain_apart_after first.isChain_apart

theorem Links.isChain_apart_after {level : Nat} {words : List String} : (links : Links level) →
    words.IsChain Lexeme.Apart → (words ++ links.words).IsChain Lexeme.Apart
  | .nil, h => by simpa [Links.words] using h
  | .cons word op joins operand links, h => by
    have hword : Numeral.isNumeral word = false := by
      rw [joins.word_eq]
      exact Numeral.isNumeral_symbol op
    have hlink := Lexeme.isChain_apart_append_cons h operand.isChain_apart hword
    have hrest := links.isChain_apart_after hlink
    rwa [List.append_assoc, List.cons_append] at hrest

end

theorem words_text {level : Nat} (phrase : Phrase level) :
    Lexeme.words phrase.text = .ok phrase.words :=
  Lexeme.words_join phrase.isLexeme phrase.isChain_apart

/-! ### The phrase of an expression -/

/-- A phrase of a level is one of every looser level. -/
theorem exists_looser {level level' : Nat} (h : level ≤ level') (phrase : Phrase level') :
    ∃ looser : Phrase level, looser.words = phrase.words ∧ looser.tree = phrase.tree := by
  induction h with
  | refl => exact ⟨phrase, rfl, rfl⟩
  | step _ ih =>
    obtain ⟨looser, hwords, htree⟩ := ih (.chain phrase .nil)
    refine ⟨looser, ?_, ?_⟩
    · simpa [Phrase.words, Links.words] using hwords
    · simpa [Phrase.tree, Links.treeAfter] using htree

theorem precedence_pos_le (op : Operator) : 1 ≤ op.precedence ∧ op.precedence ≤ 3 := by
  cases op <;> decide

/-- The infix text of an expression is that of an operand in the grammar. -/
theorem exists_phrase_toInfix {e : Expr} (hliterals : ∀ v ∈ e.literals, 0 ≤ v.toInt) :
    ∃ phrase : Phrase 4, phrase.text = e.toInfix ∧ phrase.tree = e.wordTree := by
  induction e with
  | literal v =>
    have hv := Expr.isLiteral_text (hliterals v (by simp [Expr.literals]))
    exact ⟨.numeral (Numeral.text v) hv.isNumeral, by
      simp [Phrase.text, Phrase.words, Expr.toInfix], by simp [Phrase.tree, Expr.wordTree]⟩
  | binary op left right result ihl ihr =>
    simp only [Expr.literals, List.mem_append] at hliterals
    obtain ⟨hpos, hle⟩ := precedence_pos_le op
    obtain ⟨l, hltext, hltree⟩ := ihl fun v hv => hliterals v (.inl hv)
    obtain ⟨r, hrtext, hrtree⟩ := ihr fun v hv => hliterals v (.inr hv)
    obtain ⟨l', hlwords, hltree'⟩ := exists_looser (show op.precedence + 1 ≤ 4 by omega) l
    obtain ⟨r', hrwords, hrtree'⟩ := exists_looser (show op.precedence + 1 ≤ 4 by omega) r
    obtain ⟨inner, hwords, htree⟩ := exists_looser hpos
      (Phrase.chain l' (.cons op.symbol op (joins_symbol op) r' .nil))
    refine ⟨.group inner, ?_, ?_⟩
    · rw [Expr.toInfix, ← hltext, ← hrtext]
      simp only [Phrase.text, Phrase.words, Links.words, hwords, hlwords, hrwords]
      simp [String.append_assoc]
    · simp [Phrase.tree, Links.treeAfter, htree, hltree', hrtree', hltree, hrtree, Expr.wordTree]

end ArithTree.Infix
