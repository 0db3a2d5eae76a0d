import ArithTree.Infix
import ArithTree.Lexeme
import ArithTree.Postfix
import ArithTree.Text.Blank

/-! The three notations of an expression, by where the operators stand, and the guess at the one
that a text is written in. The first rule that fits wins: operators come first if the first field is
one, or if the text is a bare numeral; they stand between their operands if there is no space; they
come last if the last field is one. -/

namespace ArithTree

inductive Notation where
  /-- Nothing is written. -/
  | blank
  /-- Operators come before their operands. -/
  | prefixed
  /-- Operators stand between their operands. -/
  | infixed
  /-- Operators come after their operands. -/
  | postfixed
  deriving DecidableEq

namespace Notation

def isSymbol (word : String) : Bool := (Operator.ofSymbol? word).isSome

/-- Guesses the notation of a trimmed text. The guess looks at a field or two, so the text may still
be rejected later. -/
def detect (input : String) : Except ReadError Notation :=
  let fields := Text.fields input
  if input.toList.isEmpty then .ok blank
  else if fields.head?.any isSymbol || Numeral.isNumeral input then .ok prefixed
  else if !input.toList.contains ' ' then .ok infixed
  else if fields.getLast?.any isSymbol then .ok postfixed
  else .error .unknownNotation

def message : Notation → String
  | blank => "No input detected."
  | prefixed => "Input detected as prefix notation."
  | infixed => "Input detected as infix notation."
  | postfixed => "Input detected as postfix notation."

/-- The words of a text in this notation, with every operator before its operands. -/
def prefixWords : Notation → String → Except ReadError (List String)
  | blank, _ => .ok []
  | prefixed, input => .ok (Text.fields input)
  | infixed, input => Lexeme.words input >>= Infix.toPrefixWords
  | postfixed, input => Postfix.toPrefixWords (Text.fields input)

end Notation

end ArithTree
