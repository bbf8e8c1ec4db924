import ClassCheck.Syntax.Expr

/-!
# Constant expressions

An expression is constant if it is built from literals other than the null value by operators,
parentheses and array literals. What keeps an expression from being constant is its first part,
from left to right, that is neither.
-/

namespace ClassCheck.Expr

mutual

/-- The first part that keeps an expression from being constant. -/
def firstNonConstant? : Expr → Option Expr
  | .int .. | .float .. | .bool .. | .string .. => none
  | .binary _ left right _ => left.firstNonConstant?.or right.firstNonConstant?
  | .unary _ operand _ => operand.firstNonConstant?
  | .paren inner _ => inner.firstNonConstant?
  | .array elements _ => firstNonConstantOf? elements
  | .nil span => some (.nil span)
  | .self span => some (.self span)
  | .ident name span => some (.ident name span)
  | .field object name span => some (.field object name span)
  | .call receiver method args span => some (.call receiver method args span)
  | .index object position span => some (.index object position span)
  | .create className args span => some (.create className args span)

/-- The first part that keeps one of several expressions from being constant. -/
def firstNonConstantOf? : List Expr → Option Expr
  | [] => none
  | e :: es => e.firstNonConstant?.or (firstNonConstantOf? es)

end

/-- Whether an expression is constant. -/
def isConstant (e : Expr) : Bool := e.firstNonConstant?.isNone

end ClassCheck.Expr
