import ArithTree.Expr

/-! The evaluation of a tree told in words, one sentence an operator, from the leaves up. The
sentences are numbered up to the tenth; the root's sentence comes last and opens by how many are
before it. -/

namespace ArithTree.Narration

def ordinals : List String :=
  ["First", "Second", "Third", "Fourth", "Fifth", "Sixth", "Seventh", "Eighth", "Ninth", "Tenth"]

/-- How an inner sentence opens when `told` sentences are before it. -/
def innerLead (told : Nat) : String := ordinals[told]?.getD "Then" ++ ", "

/-- How the root's sentence opens when `told` sentences are before it. -/
def rootLead : Nat → String
  | 0 => "All you have to do is "
  | 1 => "Then, "
  | _ => "Finally, "

def operand (e : Expr) : String := "the " ++ e.noun ++ " " ++ Numeral.text e.value

def operation (op : Operator) (a b : String) : String :=
  match op with
  | .add => "add " ++ a ++ " and " ++ b
  | .sub => "subtract " ++ b ++ " from " ++ a
  | .mul => "multiply " ++ a ++ " and " ++ b
  | .div => "divide " ++ a ++ " by " ++ b
  | .pow => "raise " ++ a ++ " to the power of " ++ b
  | .mod => "take " ++ a ++ " modulo " ++ b

def sentence (lead : String) (op : Operator) (left right : Expr) (result : Int32) : String :=
  lead ++ operation op (operand left) (operand right) ++ " to get " ++ Numeral.text result ++ "."

/-- The sentences of a tree below the root, when `told` sentences are before them. -/
def innerSentences (told : Nat) : Expr → List String
  | .literal _ => []
  | .binary op left right result =>
    let fromLeft := innerSentences told left
    let fromRight := innerSentences (told + fromLeft.length) right
    let lead := innerLead (told + fromLeft.length + fromRight.length)
    fromLeft ++ fromRight ++ [sentence lead op left right result]

/-- All sentences of a tree, the root's the last. -/
def sentences : Expr → List String
  | .literal _ => []
  | .binary op left right result =>
    let fromLeft := innerSentences 0 left
    let fromRight := innerSentences fromLeft.length right
    let lead := rootLead (fromLeft.length + fromRight.length)
    fromLeft ++ fromRight ++ [sentence lead op left right result]

/-- The whole narration; a literal has nothing to be done. -/
def instruct (root : Expr) : String :=
  let v := Numeral.text root.value
  if root.isLeaf then "Take " ++ v ++ " and do nothing to it; you get " ++ v ++ "."
  else " ".intercalate (sentences root) ++ " The final result is " ++ v ++ "."

end ArithTree.Narration
