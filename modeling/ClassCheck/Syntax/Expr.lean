import ClassCheck.Number.Shortest
import ClassCheck.Syntax.Type
import ClassCheck.Text.Quoted

/-!
# Expressions

Expression trees with their spans, and their source form. Parentheses are nodes of their own,
so the source form of a parsed expression needs no others. The source form is also the text by
which a message refers to an expression.
-/

namespace ClassCheck

/-- The binary operators. -/
inductive BinaryOp where
  | add | sub | mul | div | intDiv | mod
  | eq | ne | lt | gt | le | ge
  | and | or | concat
  deriving DecidableEq, Repr

namespace BinaryOp

/-- Every binary operator. -/
def all : List BinaryOp := [
  .add, .sub, .mul, .div, .intDiv, .mod, .eq, .ne, .lt, .gt, .le, .ge, .and, .or, .concat]

/-- How the operator is written. -/
def sign : BinaryOp → String
  | .add => "+"
  | .sub => "-"
  | .mul => "*"
  | .div => "/"
  | .intDiv => "\\"
  | .mod => "%"
  | .eq => "=="
  | .ne => "!="
  | .lt => "<"
  | .gt => ">"
  | .le => "<="
  | .ge => ">="
  | .and => "&&"
  | .or => "||"
  | .concat => "^"

/-- Operators from numbers to numbers. -/
def isArithmetic : BinaryOp → Bool
  | .add | .sub | .mul | .div | .intDiv | .mod => true
  | _ => false

/-- Operators that compare two numbers by order. -/
def isRelational : BinaryOp → Bool
  | .lt | .gt | .le | .ge => true
  | _ => false

/-- Operators that test for equality. -/
def isEquality : BinaryOp → Bool
  | .eq | .ne => true
  | _ => false

/-- Operators from truth values to truth values. -/
def isLogical : BinaryOp → Bool
  | .and | .or => true
  | _ => false

end BinaryOp

/-- The unary operators. -/
inductive UnaryOp where
  | neg | plus | not
  deriving DecidableEq, Repr

namespace UnaryOp

/-- Every unary operator. -/
def all : List UnaryOp := [.neg, .plus, .not]

/-- How the operator is written. -/
def sign : UnaryOp → String
  | .neg => "-"
  | .plus => "+"
  | .not => "!"

end UnaryOp

/-- An expression. -/
inductive Expr where
  /-- An integer literal. -/
  | int (value : Int) (span : Span)
  /-- A floating-point literal. -/
  | float (value : Number.Binary64) (span : Span)
  /-- A truth value. -/
  | bool (value : Bool) (span : Span)
  /-- A string literal, escapes resolved. -/
  | string (value : String) (span : Span)
  /-- The null value. -/
  | nil (span : Span)
  /-- The object whose member is running. -/
  | self (span : Span)
  /-- A name. -/
  | ident (name : String) (span : Span)
  /-- A binary operation. -/
  | binary (op : BinaryOp) (left right : Expr) (span : Span)
  /-- A unary operation. -/
  | unary (op : UnaryOp) (operand : Expr) (span : Span)
  /-- An attribute of an object or class. -/
  | field (object : Expr) (name : String) (span : Span)
  /-- A method call on an object or class. -/
  | call (receiver : Expr) (method : String) (args : List Expr) (span : Span)
  /-- An element of an array. -/
  | index (object position : Expr) (span : Span)
  /-- A new object of a class. -/
  | create (className : String) (args : List Expr) (span : Span)
  /-- An array by its elements. -/
  | array (elements : List Expr) (span : Span)
  /-- An expression in parentheses. -/
  | paren (inner : Expr) (span : Span)
  deriving Repr

namespace Expr

/-- Where the expression stands. -/
def span : Expr → Span
  | .int _ span | .float _ span | .bool _ span | .string _ span | .nil span | .self span
  | .ident _ span | .binary _ _ _ span | .unary _ _ span | .field _ _ span | .call _ _ _ span
  | .index _ _ span | .create _ _ span | .array _ span | .paren _ span => span

/-- The expression without the parentheses around it. -/
def bare : Expr → Expr
  | .paren inner _ => inner.bare
  | e => e

/-- Whether the expression is the running object itself, parentheses aside. -/
def isSelf (e : Expr) : Bool :=
  match e.bare with
  | .self _ => true
  | _ => false

/-- Whether an assignment can have the expression on its left. -/
def isPlace : Expr → Bool
  | .ident .. | .field .. | .index .. => true
  | _ => false

/-- Whether the expression can be a statement by itself. -/
def isCall : Expr → Bool
  | .call .. => true
  | _ => false

mutual

/-- The expression in source form. -/
def render : Expr → String
  | .int value _ => toString value
  | .float value _ => value.text
  | .bool value _ => if value then "true" else "false"
  | .string value _ => Text.quoted value
  | .nil _ => "nil"
  | .self _ => "this"
  | .ident name _ => name
  | .binary op left right _ => left.render ++ " " ++ op.sign ++ " " ++ right.render
  | .unary op operand _ => op.sign ++ operand.render
  | .field object name _ => object.render ++ "." ++ name
  | .call receiver method args _ =>
    receiver.render ++ "." ++ method ++ "(" ++ ", ".intercalate (renderAll args) ++ ")"
  | .index object position _ => object.render ++ "[" ++ position.render ++ "]"
  | .create className args _ =>
    "new " ++ className ++ "(" ++ ", ".intercalate (renderAll args) ++ ")"
  | .array elements _ => "\x7b" ++ ", ".intercalate (renderAll elements) ++ "\x7d"
  | .paren inner _ => "(" ++ inner.render ++ ")"

/-- The expressions in source form, one by one. -/
def renderAll : List Expr → List String
  | [] => []
  | e :: es => e.render :: renderAll es

end

end Expr

end ClassCheck
