import ClassCheck.Checker.Event
import ClassCheck.Scope
import ClassCheck.Syntax.Constant
import ClassCheck.Types.Rules

/-!
# Checking expressions

The type of an expression in a context and a scope, with the violations in it. An expression
with a violation has no known type, and what is not known raises no further violation around
it. Operands are checked from left to right, a receiver before its arguments.
-/

namespace ClassCheck

/-- How far a traversal goes. -/
inductive Walk where
  /-- Up to the first violation that none can outrank. -/
  | untilSettled
  /-- Through the whole program. -/
  | exhaustive
  deriving DecidableEq, Repr

/-- What is fixed while a member is checked. -/
structure Context where
  /-- How far the traversal goes. -/
  walk : Walk
  /-- The classes of the program. -/
  table : ClassTable
  /-- The class that the member belongs to. -/
  className : String
  /-- Whether the member belongs to the class itself. -/
  isStatic : Bool
  /-- Whether the member is a constructor. -/
  inCtor : Bool
  /-- The type of the member's result; none if it has no result. -/
  result : Option Ty
  deriving DecidableEq, Repr

namespace Expr

/-- The violation of a rule by an expression. -/
def breaks (e : Expr) (rule : Rule) : Violation := .broken rule e.render e.span

end Expr

namespace Checked

/-- Report a violation of a rule by an expression, whose type is then not known. -/
def poison (e : Expr) (rule : Rule) : Checked ExprTy := do
  report (e.breaks rule)
  pure .unknown

/-- Take a type, or report that types do not fit in an expression. -/
def orMismatch (e : Expr) : Option ExprTy → Checked ExprTy
  | some type => pure type
  | none => poison e .mismatchInExpression

/-- Ask for a value: an expression without a result does not fit. -/
def demandValue (e : Expr) (c : Checked ExprTy) : Checked ExprTy := do
  match ← c with
  | .void => poison e .mismatchInExpression
  | type => pure type

end Checked

/-- The class in which a member is looked up, and whether it is reached by its name. -/
structure Receiver where
  /-- The class. -/
  className : String
  /-- Whether the class itself stands before the dot, and not one of its objects. -/
  viaClass : Bool
  deriving DecidableEq, Repr

/-- The type that all elements of an array literal share. The null value joins elements of a
class or array type, and cannot stand alone. -/
def elementType? (types : List ExprTy) : Option Ty :=
  match types.filterMap ExprTy.known? with
  | [] => none
  | first :: rest =>
    if types.all (fun type => type = .nil || type.known?.isSome) &&
        rest.all first.same && (first.isNullable || !types.contains .nil) then some first
    else none

namespace Context

open Checked

/-- The type of the running object, which only instance members have. -/
def selfType (ctx : Context) (e : Expr) : Checked ExprTy :=
  if ctx.isStatic then poison e .illegalMemberAccess
  else pure (.known (.object ctx.className))

/-- The value of a local name. -/
def readLocal (b : Binding) : Checked ExprTy := do
  unless b.initialized do note (.unassignedRead b.name)
  match b.kind with
  | .facility => pure (.classRef ioClass)
  | _ => pure (.value b.type)

/-- What a name stands for: a local name, an attribute of the class, or a class. -/
def identType (ctx : Context) (scope : Scope) (name : String) (e : Expr) : Checked ExprTy :=
  match scope.lookup? name with
  | some b => readLocal b
  | none =>
    match ctx.table.findAttribute? ctx.className name with
    | some (_, info) => pure (.value info.type)
    | none =>
      if ctx.table.contains name then pure (.classRef name)
      else do
        report (.broken .undeclaredIdentifier name e.span)
        pure .unknown

/-- The class in which a member is looked up. An object of a class that is not declared has
none; the class was reported where the type is written. -/
def receiver? (ctx : Context) (access : Expr) : ExprTy → Checked (Option Receiver)
  | .classRef className => pure (some ⟨className, true⟩)
  | .known (.object className) =>
    pure (if ctx.table.contains className then some ⟨className, false⟩ else none)
  | .unknown => pure none
  | _ => do
    report (access.breaks .mismatchInExpression)
    pure none

/-- The attribute that an access reaches, with the class that declares it. -/
def attribute? (ctx : Context) (access : Expr) (name : String) (object : ExprTy) :
    Checked (Option (String × AttributeInfo)) := do
  match ← ctx.receiver? access object with
  | none => pure none
  | some receiver =>
    match ctx.table.findAttribute? receiver.className name with
    | none =>
      report (.broken .undeclaredAttribute name access.span)
      pure none
    | some (owner, info) =>
      if info.isStatic = receiver.viaClass then pure (some (owner, info))
      else
        report (access.breaks .illegalMemberAccess)
        pure none

/-- The method that a call reaches. -/
def method? (ctx : Context) (call : Expr) (name : String) (object : ExprTy) :
    Checked (Option Signature) := do
  match ← ctx.receiver? call object with
  | none => pure none
  | some receiver =>
    match ctx.table.findMethod? receiver.className name with
    | none =>
      report (.broken .undeclaredMethod name call.span)
      pure none
    | some (_, signature) =>
      if signature.isStatic = receiver.viaClass then pure (some signature)
      else
        report (call.breaks .illegalMemberAccess)
        pure none

/-- What a call of a method yields. -/
def callResult (ctx : Context) (call : Expr) (signature : Option Signature)
    (args : List ExprTy) : Checked ExprTy :=
  match signature with
  | none => pure .unknown
  | some signature =>
    if ctx.table.argumentsFit signature.params args then
      pure (match signature.result with
        | some type => .value type
        | none => .void)
    else poison call .mismatchInExpression

/-- Report a class that is not declared, where an object of it is made. -/
def demandClass (ctx : Context) (className : String) (e : Expr) : Checked Unit :=
  unless ctx.table.contains className do report (.broken .undeclaredClass className e.span)

/-- What making an object of a class yields. -/
def createResult (ctx : Context) (e : Expr) (className : String) (args : List ExprTy) :
    Checked ExprTy :=
  if ctx.table.contains className then
    let params := ((ctx.table.ctor? className).map Signature.params).getD []
    if ctx.table.argumentsFit params args then pure (.known (.object className))
    else poison e .mismatchInExpression
  else pure .unknown

/-- What an access to an element yields. -/
def elementResult (e : Expr) (object position : ExprTy) : Checked ExprTy :=
  let element := match object with
    | .known (.array element _) => some (.value element)
    | .unknown => some .unknown
    | _ => none
  orMismatch e (if position.admitsInt then element else none)

/-- What an array literal yields. -/
def arrayResult (e : Expr) (types : List ExprTy) : Checked ExprTy :=
  if types.any ExprTy.isUnknown then pure .unknown
  else match elementType? types with
    | some type => pure (.known (.array type types.length))
    | none => poison e .illegalArrayLiteral

mutual

/-- The type of an expression. -/
def exprType (ctx : Context) (scope : Scope) : Expr → Checked ExprTy
  | .int .. => pure (.known .int)
  | .float .. => pure (.known .float)
  | .bool .. => pure (.known .boolean)
  | .string .. => pure (.known .string)
  | .nil _ => pure .nil
  | .self span => ctx.selfType (.self span)
  | .ident name span => ctx.identType scope name (.ident name span)
  | .paren inner _ => ctx.exprType scope inner
  | .binary op left right span => do
    let a ← demandValue left (ctx.exprType scope left)
    let b ← demandValue right (ctx.exprType scope right)
    orMismatch (.binary op left right span) (ExprTy.binary? op a b)
  | .unary op operand span => do
    let a ← demandValue operand (ctx.exprType scope operand)
    orMismatch (.unary op operand span) (ExprTy.unary? op a)
  | .index object position span => do
    let a ← demandValue object (ctx.exprType scope object)
    let i ← demandValue position (ctx.exprType scope position)
    elementResult (.index object position span) a i
  | .field object name span => do
    let a ← demandValue object (ctx.exprType scope object)
    match ← ctx.attribute? (.field object name span) name a with
    | some (_, info) => pure (.value info.type)
    | none => pure .unknown
  | .call receiver method args span => do
    let a ← demandValue receiver (ctx.exprType scope receiver)
    let signature ← ctx.method? (.call receiver method args span) method a
    let types ← ctx.valueTypes scope args
    ctx.callResult (.call receiver method args span) signature types
  | .create className args span => do
    ctx.demandClass className (.create className args span)
    let types ← ctx.valueTypes scope args
    ctx.createResult (.create className args span) className types
  | .array elements span => do
    let types ← ctx.valueTypes scope elements
    arrayResult (.array elements span) types

/-- The types of expressions that have to be values. -/
def valueTypes (ctx : Context) (scope : Scope) : List Expr → Checked (List ExprTy)
  | [] => pure []
  | e :: es => do
    let type ← demandValue e (ctx.exprType scope e)
    let types ← ctx.valueTypes scope es
    pure (type :: types)

end

/-- The type of an expression that has to be a value. -/
def valueType (ctx : Context) (scope : Scope) (e : Expr) : Checked ExprTy :=
  demandValue e (ctx.exprType scope e)

/-- Report a class that is not declared, where a type is written. -/
def demandType (ctx : Context) (type : WrittenType) : Checked Unit :=
  match type.className? with
  | some c => unless ctx.table.contains c.name do report (.broken .undeclaredClass c.name c.span)
  | none => pure ()

/-- Check an initial value; `blame` makes the violation of a rule by the declaration that the
value belongs to. -/
def initializer (ctx : Context) (scope : Scope) (isFinal : Bool) (declared : Ty) (init : Expr)
    (blame : Rule → Violation) : Checked Unit := do
  let actual ← ctx.valueType scope init
  unless ctx.table.compatible declared actual do
    report (blame (if isFinal then .mismatchInConstant else .mismatchInStatement))
  if isFinal then
    match init.firstNonConstant? with
    | some offender =>
      note (.nonConstant offender.render)
      report (init.breaks .illegalConstantExpression)
    | none => pure ()

end Context

end ClassCheck
