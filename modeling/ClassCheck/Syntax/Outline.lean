import ClassCheck.Syntax.Program
import ClassCheck.Text.Outline

/-!
# Outlines of syntax trees

The whole tree of a program, every node with its span, for a reader who wants to see how a
source text was understood.
-/

namespace ClassCheck

open Text (Outline)

/-- Outline of a span. -/
def Span.outline (s : Span) : Outline :=
  .record "Span" [("start", .nat s.start), ("end", .nat s.stop)]

/-- A node with its kind and its span. -/
def nodeOutline (name : String) (kind : Outline) (span : Span) : Outline :=
  .record name [("kind", kind), ("span", span.outline)]

/-- Outline of a primitive type. -/
def Primitive.outline : Primitive → Outline
  | .int => .atom "Int"
  | .float => .atom "Float"
  | .boolean => .atom "Boolean"
  | .string => .atom "String"

/-- Outline of a written type. -/
def WrittenType.outline : WrittenType → Outline
  | .primitive type span => nodeOutline "TypeExpr" type.outline span
  | .named name span => nodeOutline "TypeExpr" (.tagged "Class" (.text name)) span
  | .array element size span =>
    nodeOutline "TypeExpr" (.record "Array"
      [("element", element.outline), ("size", .nat size)]) span
  | .reference referent span =>
    nodeOutline "TypeExpr" (.tagged "Reference" referent.outline) span

/-- Name of a binary operator in an outline. -/
def BinaryOp.label : BinaryOp → String
  | .add => "Add"
  | .sub => "Sub"
  | .mul => "Mul"
  | .div => "Div"
  | .intDiv => "IntDiv"
  | .mod => "Mod"
  | .eq => "Eq"
  | .ne => "Ne"
  | .lt => "Lt"
  | .gt => "Gt"
  | .le => "Le"
  | .ge => "Ge"
  | .and => "And"
  | .or => "Or"
  | .concat => "Concat"

/-- Name of a unary operator in an outline. -/
def UnaryOp.label : UnaryOp → String
  | .neg => "Neg"
  | .plus => "Plus"
  | .not => "Not"

namespace Expr

mutual

/-- Outline of an expression. -/
def outline : Expr → Outline
  | .int value span => nodeOutline "Expr" (.tagged "IntLiteral" (.atom (toString value))) span
  | .float value span => nodeOutline "Expr" (.tagged "FloatLiteral" (.atom value.text)) span
  | .bool value span => nodeOutline "Expr" (.tagged "BoolLiteral" (.bool value)) span
  | .string value span => nodeOutline "Expr" (.tagged "StringLiteral" (.text value)) span
  | .nil span => nodeOutline "Expr" (.atom "Nil") span
  | .self span => nodeOutline "Expr" (.atom "This") span
  | .ident name span => nodeOutline "Expr" (.tagged "Identifier" (.text name)) span
  | .binary op left right span =>
    nodeOutline "Expr" (.record "Binary"
      [("op", .atom op.label), ("left", left.outline), ("right", right.outline)]) span
  | .unary op operand span =>
    nodeOutline "Expr" (.record "Unary"
      [("op", .atom op.label), ("operand", operand.outline)]) span
  | .field object name span =>
    nodeOutline "Expr" (.record "Field" [("object", object.outline), ("field", .text name)]) span
  | .call receiver method args span =>
    nodeOutline "Expr" (.record "MethodCall"
      [("receiver", receiver.outline), ("method", .text method),
        ("args", .list (outlines args))]) span
  | .index object position span =>
    nodeOutline "Expr" (.record "Index"
      [("object", object.outline), ("index", position.outline)]) span
  | .create className args span =>
    nodeOutline "Expr" (.record "New"
      [("class", .text className), ("args", .list (outlines args))]) span
  | .array elements span =>
    nodeOutline "Expr" (.tagged "ArrayLiteral" (.list (outlines elements))) span
  | .paren inner span => nodeOutline "Expr" (.tagged "Paren" inner.outline) span

/-- Outlines of expressions, one by one. -/
def outlines : List Expr → List Outline
  | [] => []
  | e :: es => e.outline :: outlines es

end

end Expr

/-- Outline of a declared name. -/
def Declarator.outline (d : Declarator) : Outline :=
  .record "Declarator"
    [("name", .text d.name), ("init", .option (d.init.map Expr.outline)), ("span", d.span.outline)]

/-- Outline of a loop's direction. -/
def Direction.outline : Direction → Outline
  | .up => .atom "To"
  | .down => .atom "Downto"

/-- Outline of statements in braces, given those of the statements. -/
def blockOutline (stmts : List Outline) (span : Span) : Outline :=
  .record "Block" [("stmts", .list stmts), ("span", span.outline)]

/-- Outline of a branch, given those of its parts. -/
def branchOutline (condition thenBranch : Outline) (elseBranch : Option Outline) : Outline :=
  .record "If" [("condition", condition), ("then_branch", thenBranch),
    ("else_branch", .option elseBranch)]

namespace Stmt

mutual

/-- Outline of a statement. -/
def outline : Stmt → Outline
  | .declare isFinal type declarators span =>
    nodeOutline "Stmt" (.tagged "VarDecl" (.record "VarDecl"
      [("is_final", .bool isFinal), ("ty", type.outline),
        ("declarators", .list (declarators.map Declarator.outline))])) span
  | .assign target value span =>
    nodeOutline "Stmt" (.record "Assign"
      [("target", target.outline), ("value", value.outline)]) span
  | .ifThen condition thenBranch span =>
    nodeOutline "Stmt" (branchOutline condition.outline thenBranch.outline none) span
  | .ifElse condition thenBranch elseBranch span =>
    nodeOutline "Stmt"
      (branchOutline condition.outline thenBranch.outline (some elseBranch.outline)) span
  | .loop counter first last direction body span =>
    nodeOutline "Stmt" (.record "For"
      [("var", .text counter.name), ("var_span", counter.span.outline),
        ("start", first.outline), ("end", last.outline), ("direction", direction.outline),
        ("body", body.outline)]) span
  | .breakLoop span => nodeOutline "Stmt" (.atom "Break") span
  | .continueLoop span => nodeOutline "Stmt" (.atom "Continue") span
  | .returnValue value span =>
    nodeOutline "Stmt" (.tagged "Return" (.option (value.map Expr.outline))) span
  | .call invocation span => nodeOutline "Stmt" (.tagged "Call" invocation.outline) span
  | .block stmts span =>
    nodeOutline "Stmt" (.tagged "Block" (blockOutline (outlines stmts) span)) span

/-- Outlines of statements, one by one. -/
def outlines : List Stmt → List Outline
  | [] => []
  | s :: ss => s.outline :: outlines ss

end

end Stmt

/-- Outline of a member's body. -/
def Block.outline (b : Block) : Outline := blockOutline (Stmt.outlines b.stmts) b.span

/-- Outline of a parameter. -/
def Param.outline (p : Param) : Outline :=
  .record "Param" [("name", .text p.name), ("ty", p.type.outline), ("span", p.span.outline)]

/-- Outline of attributes declared together. -/
def AttributeDecl.outline (a : AttributeDecl) : Outline :=
  .record "AttributeDecl"
    [("is_static", .bool a.isStatic), ("is_final", .bool a.isFinal), ("ty", a.type.outline),
      ("declarators", .list (a.declarators.map Declarator.outline))]

/-- Outline of a method. -/
def MethodDecl.outline (m : MethodDecl) : Outline :=
  .record "MethodDecl"
    [("is_static", .bool m.isStatic), ("return_type", .option (m.result.map WrittenType.outline)),
      ("name", .text m.name), ("params", .list (m.params.map Param.outline)),
      ("body", m.body.outline)]

/-- Outline of a constructor. -/
def CtorDecl.outline (c : CtorDecl) : Outline :=
  .record "ConstructorDecl"
    [("name", .text c.name), ("params", .list (c.params.map Param.outline)),
      ("body", c.body.outline)]

/-- Outline of a destructor. -/
def DtorDecl.outline (d : DtorDecl) : Outline :=
  .record "DestructorDecl" [("name", .text d.name), ("body", d.body.outline)]

/-- Outline of a member. -/
def Member.outline : Member → Outline
  | .attribute decl span => nodeOutline "Member" (.tagged "Attribute" decl.outline) span
  | .method decl span => nodeOutline "Member" (.tagged "Method" decl.outline) span
  | .ctor decl span => nodeOutline "Member" (.tagged "Constructor" decl.outline) span
  | .dtor decl span => nodeOutline "Member" (.tagged "Destructor" decl.outline) span

/-- Outline of a class. -/
def ClassDecl.outline (c : ClassDecl) : Outline :=
  .record "ClassDecl"
    [("name", .text c.name.name), ("parent", .option (c.parent.map fun p => .text p.name)),
      ("members", .list (c.members.map Member.outline)), ("name_span", c.name.span.outline),
      ("parent_span", .option (c.parent.map fun p => p.span.outline)), ("span", c.span.outline)]

/-- Outline of a program. -/
def Program.outline (p : Program) : Outline :=
  .record "Program"
    [("classes", .list (p.classes.map ClassDecl.outline)), ("span", p.span.outline)]

end ClassCheck
