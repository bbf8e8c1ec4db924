import ClassCheck.Classes.Hierarchy
import ClassCheck.Syntax.Expr

/-!
# Type rules

Which values fit a declared type, and what operators yield. A whole number fits where a
floating-point number is declared, and an object where an ancestor of its class is. A reference
takes no such widening of numbers, since it aliases a place of its own type. What is not known
fits everywhere, so that one violation does not bring others with it.
-/

namespace ClassCheck.ClassTable

/-- Whether a reference to places of a type can be bound to a value of another. -/
def bindsReference (t : ClassTable) (target actual : Ty) : Bool :=
  match target, actual with
  | .object sup, .object sub => t.isSubclass sub sup
  | _, _ => target.same actual

/-- Whether a value of a type can be stored in a place of another. -/
def isAssignable (t : ClassTable) (expected actual : Ty) : Bool :=
  match expected, actual with
  | .primitive .float, .primitive .int => true
  | .object sup, .object sub => t.isSubclass sub sup
  | _, _ => expected.same actual

/-- Whether an expression fits a declared type. -/
def compatible (t : ClassTable) (expected : Ty) (actual : ExprTy) : Bool :=
  match actual with
  | .unknown => true
  | .nil => expected.isNullable
  | .void | .classRef _ => false
  | .known actual =>
    match expected with
    | .reference referent => t.bindsReference referent.decayed actual.decayed
    | _ => t.isAssignable expected actual.decayed

/-- Whether arguments fit parameters: as many, and each of them. -/
def argumentsFit (t : ClassTable) (params : List (String × Ty)) (args : List ExprTy) : Bool :=
  params.length = args.length && (params.zip args).all fun (param, arg) => t.compatible param.2 arg

end ClassCheck.ClassTable

namespace ClassCheck.ExprTy

/-- Whether two expressions can be tested for equality. -/
def comparable : ExprTy → ExprTy → Bool
  | .nil, .nil => true
  | .nil, .known type | .known type, .nil => type.isNullable
  | .known a, .known b => a.same b || (a.isNumeric && b.isNumeric)
  | _, _ => false

/-- What a binary operator other than an equality test yields on values of known types. -/
def operated (op : BinaryOp) (a b : Ty) : Option Ty :=
  if op.isArithmetic then
    if a.isNumeric && b.isNumeric then some (if a.isInt && b.isInt then .int else .float)
    else none
  else if op.isRelational then
    if a.isNumeric && b.isNumeric then some .boolean else none
  else if op.isLogical then
    if a.isBoolean && b.isBoolean then some .boolean else none
  else if a.isString && b.isString then some .string else none

/-- What a binary operator yields, if it takes these operands. -/
def binary? (op : BinaryOp) (left right : ExprTy) : Option ExprTy :=
  if left.isUnknown || right.isUnknown then some .unknown
  else if op.isEquality then
    if left.comparable right then some (.known .boolean) else none
  else match left.known?, right.known? with
    | some a, some b => (operated op a b).map .known
    | _, _ => none

/-- What a unary operator yields, if it takes this operand. -/
def unary? (op : UnaryOp) (operand : ExprTy) : Option ExprTy :=
  if operand.isUnknown then some .unknown
  else match operand.known? with
    | none => none
    | some type =>
      let takes := match op with
        | .neg | .plus => type.isNumeric
        | .not => type.isBoolean
      if takes then some (.value type) else none

end ClassCheck.ExprTy
