import ClassCheck.Syntax.Expr

/-!
# Statements

Statement trees with their spans, and their source form. A whole block is one line of source
form, each statement in it closed by a semicolon.
-/

namespace ClassCheck

/-- One declared name with its optional initial value. -/
structure Declarator where
  /-- The name. -/
  name : String
  /-- The initial value. -/
  init : Option Expr
  /-- From the name to the end of the initial value. -/
  span : Span
  deriving Repr

/-- Which way a loop counts. -/
inductive Direction where
  | up | down
  deriving DecidableEq, Repr

/-- How a loop's direction is written. -/
def Direction.word : Direction → String
  | .up => "to"
  | .down => "downto"

/-- A statement. -/
inductive Stmt where
  /-- Local variables, or constants if final. -/
  | declare (isFinal : Bool) (type : WrittenType) (declarators : List Declarator) (span : Span)
  /-- An assignment. -/
  | assign (target value : Expr) (span : Span)
  /-- A branch with nothing to do otherwise. -/
  | ifThen (condition : Expr) (thenBranch : Stmt) (span : Span)
  /-- A branch with an alternative. -/
  | ifElse (condition : Expr) (thenBranch elseBranch : Stmt) (span : Span)
  /-- A counted loop. -/
  | loop (counter : Ident) (first last : Expr) (direction : Direction) (body : Stmt) (span : Span)
  /-- Leave the loop. -/
  | breakLoop (span : Span)
  /-- Go on with the next round of the loop. -/
  | continueLoop (span : Span)
  /-- Return from the method, with a value or without. -/
  | returnValue (value : Option Expr) (span : Span)
  /-- A method call for its effect. -/
  | call (invocation : Expr) (span : Span)
  /-- Statements in braces. -/
  | block (stmts : List Stmt) (span : Span)
  deriving Repr

/-- The statements of a member's body, in braces. -/
structure Block where
  /-- The statements in order. -/
  stmts : List Stmt
  /-- From the opening to the closing brace. -/
  span : Span
  deriving Repr

/-- The declared name with its initial value in source form. -/
def Declarator.render (d : Declarator) : String :=
  match d.init with
  | some init => d.name ++ ":=" ++ init.render
  | none => d.name

/-- Declared names in source form. -/
def Declarator.renderAll (ds : List Declarator) : String :=
  ", ".intercalate (ds.map Declarator.render)

namespace Stmt

/-- Where the statement stands. -/
def span : Stmt → Span
  | .declare _ _ _ span | .assign _ _ span | .ifThen _ _ span | .ifElse _ _ _ span
  | .loop _ _ _ _ _ span | .breakLoop span | .continueLoop span | .returnValue _ span | .call _ span
  | .block _ span => span

mutual

/-- The statement in source form, without its closing semicolon. -/
def render : Stmt → String
  | .declare isFinal type declarators _ =>
    (if isFinal then "final " else "") ++ type.render ++ " " ++ Declarator.renderAll declarators
  | .assign target value _ => target.render ++ ":=" ++ value.render
  | .ifThen condition thenBranch _ => "if " ++ condition.render ++ " then " ++ thenBranch.render
  | .ifElse condition thenBranch elseBranch _ =>
    "if " ++ condition.render ++ " then " ++ thenBranch.render ++ " else " ++ elseBranch.render
  | .loop counter first last direction body _ =>
    "for " ++ counter.name ++ ":=" ++ first.render ++ " " ++ direction.word ++ " " ++
      last.render ++ " do " ++ body.render
  | .breakLoop _ => "break"
  | .continueLoop _ => "continue"
  | .returnValue none _ => "return"
  | .returnValue (some value) _ => "return " ++ value.render
  | .call invocation _ => invocation.render
  | .block stmts _ => renderBlock stmts

/-- Statements in braces in source form. -/
def renderBlock : List Stmt → String
  | [] => "\x7b\x7d"
  | s :: ss => "\x7b " ++ s.render ++ "; " ++ renderItems ss ++ "\x7d"

/-- Statements in source form, each with a semicolon after it. -/
def renderItems : List Stmt → String
  | [] => ""
  | s :: ss => s.render ++ "; " ++ renderItems ss

end

end Stmt

/-- The body in source form. -/
def Block.render (b : Block) : String := Stmt.renderBlock b.stmts

end ClassCheck
