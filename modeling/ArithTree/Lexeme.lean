import ArithTree.ReadError

/-! The lexemes of an expression: numerals, operators and parentheses. The alphabet is closed, so
one character outside it rejects the whole text; only the space may stand between lexemes, and it is
dropped. Proved: a text is cut into lexemes exactly when all of its characters are in the
alphabet. -/

namespace ArithTree.Lexeme

def inAlphabet (c : Char) : Bool :=
  c == ' ' || c.isDigit || c == '(' || c == ')' || Operator.all.any (·.glyph == c)

/-- Two neighbouring characters are in one lexeme exactly when both are digits. -/
def joined (a b : Char) : Bool := a.isDigit && b.isDigit

/-- Cuts characters of the alphabet into lexemes, without the spaces. -/
def cut (cs : List Char) : List (List Char) := (cs.splitBy joined).filter (· != [' '])

/-- The lexemes of a text as words. -/
def words (input : String) : Except ReadError (List String) :=
  match input.toList.find? (!inAlphabet ·) with
  | some found => .error (.invalidCharacter found)
  | none => .ok ((cut input.toList).map String.ofList)

/-- Refuses a text with a character outside the alphabet. -/
def validate (input : String) : Except ReadError Unit := (words input).map fun _ => ()

theorem validate_eq_ok_iff {input : String} :
    validate input = .ok () ↔ ∀ c ∈ input.toList, inAlphabet c = true := by
  simp only [validate, words]
  cases h : input.toList.find? (!inAlphabet ·) with
  | none => simpa [Except.map] using h
  | some found =>
    have hmem := List.mem_of_find?_eq_some h
    have hfound : inAlphabet found = false := by simpa using List.find?_some h
    simp only [Except.map, reduceCtorEq, false_iff]
    exact fun hall => by simp [hall found hmem] at hfound

end ArithTree.Lexeme
