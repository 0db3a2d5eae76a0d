import ArithTree.Notation
import ArithTree.Prefix

/-! From a text to a tree. The alphabet is checked first, on the text as it is; the notation is then
guessed from the trimmed text, the words are rearranged, and the tree is read from them. A text of
blanks alone is no error: it has a notation and no tree. -/

namespace ArithTree

/-- What a text is read as. -/
structure Reading where
  written : Notation
  root : Option Expr
  deriving DecidableEq

namespace Reading

def ofText (input : String) : Except ReadError Reading := do
  Lexeme.validate input
  let text := Text.trim input
  let written ← Notation.detect text
  if written = .blank then
    .ok ⟨written, none⟩
  else
    let words ← written.prefixWords text
    let root ← Prefix.read words
    .ok ⟨written, some root⟩

end Reading

end ArithTree
