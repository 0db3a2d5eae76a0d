/-! Quoted text, as the journal writes it. A text stands in double quotes; quotes and backslashes
inside it are escaped, and so are control characters. What is outside ASCII is left as it is. -/

namespace ArithTree.Text

/-- Lower-case hexadecimal digits in braces: the escape of a control character without a letter of
its own. -/
def controlEscape (c : Char) : String :=
  "\\u\x7b" ++ String.ofList (Nat.toDigits 16 c.toNat) ++ "\x7d"

def escaped (c : Char) : String :=
  match c with
  | '"' => "\\\""
  | '\\' => "\\\\"
  | '\t' => "\\t"
  | '\r' => "\\r"
  | '\n' => "\\n"
  | '\x00' => "\\0"
  | c => if c.toNat < 0x20 || c.toNat == 0x7f then controlEscape c else String.singleton c

def quoted (s : String) : String := "\"" ++ String.join (s.toList.map escaped) ++ "\""

/-- Quoted words in brackets, separated by a comma and a space. -/
def quotedList (words : List String) : String :=
  "[" ++ ", ".intercalate (words.map quoted) ++ "]"

end ArithTree.Text
