import ArithTree.Report

/-! The dialogue over a stream of bytes. A line ends with a line feed, and a carriage return right
before the line feed is not part of it; the last line may have no end. Each line is answered after a
prompt, independently of the lines before it, until the stream ends, the line asks to quit, or the
line is not UTF-8. -/

namespace ArithTree.Dialogue

def prompt : String := "Enter an expression (d for details or q to quit): "

def details : String :=
  "Enter a mathematical expression in prefix, postfix, or infix notation.\n"
    ++ "The expression may only use integers from 0 to 2147483647\n"
    ++ "and the operations +, -, *, /, ^, or %. The division operator is integer division.\n"
    ++ "\n"
    ++ "Prefix notation puts the operator before each pair of operands, as in\n"
    ++ "'+ 1 1', which evaluates to 2. A longer example is\n"
    ++ "+ * + * 8 7 4 5 * + 2 2 * 3 7         which evaluates to 384.\n"
    ++ "Please USE SPACES between operands and operators for prefix notation.\n"
    ++ "\n"
    ++ "Postfix notation puts the operator after each pair of operands, as in\n"
    ++ "'1 1 +', which evaluates to 2. A longer example is\n"
    ++ "8 7 * 4 + 5 * 2 2 + 3 7 * * +         which evaluates to 384.\n"
    ++ "Please USE SPACES between operands and operators for postfix notation.\n"
    ++ "\n"
    ++ "Infix notation puts the operator in between each pair of operands, as in\n"
    ++ "'1+1', which evaluates to 2. A longer example is\n"
    ++ "((((8*7)+4)*5)+((2+2)*(3*7)))         which evaluates to 384.\n"
    ++ "Parentheses may be used for infix notation, but aren't required.\n"
    ++ "Please DO NOT USE SPACES for infix notation."

/-- The answer to a line, if the line does not quit. -/
def reply? (line : String) : Option String :=
  if line = "d" then some ("\n" ++ details ++ "\n\n")
  else if line = "q" then none
  else some ("\n" ++ Report.text line ++ "\n\n")

/-! ### Lines -/

def lineFeed : UInt8 := 10

def carriageReturn : UInt8 := 13

/-- Cuts a stream after each line feed. -/
def lines (bytes : List UInt8) : List (List UInt8) := bytes.splitBy fun b _ => b != lineFeed

/-- A line without its end. -/
def withoutEnd (line : List UInt8) : List UInt8 :=
  match line.reverse with
  | last :: before =>
    if last = lineFeed then
      if before.head? = some carriageReturn then before.tail.reverse else before.reverse
    else line
  | [] => []

/-- The text of a line, if it is UTF-8. -/
def decode? (line : List UInt8) : Option String := String.fromUTF8? (withoutEnd line).toByteArray

/-- The answer to a line as it was read, if the dialogue goes on after it. -/
def answer? (line : List UInt8) : Option String := decode? line >>= reply?

/-! ### Transcripts -/

/-- What is printed over a list of lines: a prompt for each line that is read, and one for the line
that ends the dialogue or is not there. -/
def transcriptOf : List (List UInt8) → String
  | [] => prompt
  | line :: rest =>
    match answer? line with
    | some answer => prompt ++ answer ++ transcriptOf rest
    | none => prompt

def transcript (bytes : List UInt8) : String := transcriptOf (lines bytes)

end ArithTree.Dialogue
