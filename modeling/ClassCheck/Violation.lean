import ClassCheck.Span

/-!
# Violations of the static rules

A violation is a broken rule, the text of what breaks it and the place. Rules have a rank, and
of all violations of a program one is reported: the first among those of the highest rank.
The tracker keeps that one while violations come in.
-/

namespace ClassCheck

/-- What a name is declared as. -/
inductive Declared where
  | variable | constant | attribute | method | classType | parameter | ctor | dtor
  deriving DecidableEq, Repr

namespace Declared

/-- Every way a name can be declared. -/
def all : List Declared := [
  .variable, .constant, .attribute, .method, .classType, .parameter, .ctor, .dtor]

/-- How a message says it. -/
def text : Declared → String
  | .variable => "Variable"
  | .constant => "Constant"
  | .attribute => "Attribute"
  | .method => "Method"
  | .classType => "Class"
  | .parameter => "Parameter"
  | .ctor => "Constructor"
  | .dtor => "Destructor"

end Declared

/-- How grave a violation is, the gravest first. -/
inductive Priority where
  | declaration | typeMismatch | memberAccess | loopControl | constantAssignment
  | illegalLiteral | entryPoint
  deriving DecidableEq, Repr

namespace Priority

/-- Place in the order, from one. -/
def rank : Priority → Nat
  | .declaration => 1
  | .typeMismatch => 2
  | .memberAccess => 3
  | .loopControl => 4
  | .constantAssignment => 5
  | .illegalLiteral => 6
  | .entryPoint => 7

/-- How a message says it. -/
def text : Priority → String
  | .declaration => "Declaration"
  | .typeMismatch => "TypeMismatch"
  | .memberAccess => "MemberAccess"
  | .loopControl => "LoopControl"
  | .constantAssignment => "ConstantAssignment"
  | .illegalLiteral => "IllegalLiteral"
  | .entryPoint => "EntryPoint"

/-- Whether the first is strictly graver than the second. -/
def outranks (a b : Priority) : Bool := a.rank < b.rank

end Priority

/-- The rules that a piece of source text can break. -/
inductive Rule where
  /-- A name is declared twice. -/
  | redeclared (what : Declared)
  /-- A name is not declared. -/
  | undeclaredIdentifier
  /-- A class is not declared. -/
  | undeclaredClass
  /-- An attribute is not declared. -/
  | undeclaredAttribute
  /-- A method is not declared. -/
  | undeclaredMethod
  /-- Types do not fit in a statement. -/
  | mismatchInStatement
  /-- Types do not fit in an expression. -/
  | mismatchInExpression
  /-- Types do not fit in the declaration of a constant. -/
  | mismatchInConstant
  /-- A static member is reached through an object, or an instance member through a class. -/
  | illegalMemberAccess
  /-- A loop is left or continued outside of any. -/
  | mustInLoop
  /-- A constant is assigned to. -/
  | cannotAssignToConstant
  /-- The elements of an array literal have no type in common. -/
  | illegalArrayLiteral
  /-- The initial value of a constant is not constant. -/
  | illegalConstantExpression
  deriving DecidableEq, Repr

namespace Rule

/-- The rule's name. -/
def name : Rule → String
  | .redeclared _ => "Redeclared"
  | .undeclaredIdentifier => "UndeclaredIdentifier"
  | .undeclaredClass => "UndeclaredClass"
  | .undeclaredAttribute => "UndeclaredAttribute"
  | .undeclaredMethod => "UndeclaredMethod"
  | .mismatchInStatement => "TypeMismatchInStatement"
  | .mismatchInExpression => "TypeMismatchInExpression"
  | .mismatchInConstant => "TypeMismatchInConstant"
  | .illegalMemberAccess => "IllegalMemberAccess"
  | .mustInLoop => "MustInLoop"
  | .cannotAssignToConstant => "CannotAssignToConstant"
  | .illegalArrayLiteral => "IllegalArrayLiteral"
  | .illegalConstantExpression => "IllegalConstantExpression"

/-- The rules whose name says all, that is all but redeclaration. -/
def plain : List Rule := [
  .undeclaredIdentifier, .undeclaredClass, .undeclaredAttribute, .undeclaredMethod,
  .mismatchInStatement, .mismatchInExpression, .mismatchInConstant, .illegalMemberAccess,
  .mustInLoop, .cannotAssignToConstant, .illegalArrayLiteral, .illegalConstantExpression]

/-- How grave it is to break the rule. -/
def priority : Rule → Priority
  | .redeclared _ | .undeclaredIdentifier | .undeclaredClass | .undeclaredAttribute
  | .undeclaredMethod => .declaration
  | .mismatchInStatement | .mismatchInExpression | .mismatchInConstant => .typeMismatch
  | .illegalMemberAccess => .memberAccess
  | .mustInLoop => .loopControl
  | .cannotAssignToConstant => .constantAssignment
  | .illegalArrayLiteral | .illegalConstantExpression => .illegalLiteral

end Rule

/-- A violation of the static rules. -/
inductive Violation where
  /-- A rule broken by a piece of source text. -/
  | broken (rule : Rule) (subject : String) (span : Span)
  /-- The program has no place to start at. -/
  | noEntryPoint
  deriving DecidableEq, Repr

namespace Violation

/-- Name of the kind of violation. -/
def kindName : Violation → String
  | .broken rule _ _ => rule.name
  | .noEntryPoint => "NoEntryPoint"

/-- How grave the violation is. -/
def priority : Violation → Priority
  | .broken rule _ _ => rule.priority
  | .noEntryPoint => .entryPoint

/-- Where the violation stands, if it stands anywhere. -/
def span? : Violation → Option Span
  | .broken _ _ span => some span
  | .noEntryPoint => none

/-- The violation in one line. -/
def message : Violation → String
  | .broken (.redeclared what) subject _ => s!"Redeclared({what.text}, {subject})"
  | .broken rule subject _ => s!"{rule.name}({subject})"
  | .noEntryPoint => "No Entry Point"

/-- Whether no later violation can be graver. -/
def isDecisive (v : Violation) : Bool := v.priority = .declaration

end Violation

/-- The gravest violation so far; of several the first. -/
structure Tracker where
  /-- The violation to report. -/
  best : Option Violation
  deriving DecidableEq, Repr

namespace Tracker

/-- No violation so far. -/
def empty : Tracker := ⟨none⟩

/-- Whether a violation would be kept. -/
def accepts (t : Tracker) (v : Violation) : Bool :=
  match t.best with
  | some best => v.priority.outranks best.priority
  | none => true

/-- Take note of a violation. -/
def record (t : Tracker) (v : Violation) : Tracker := if t.accepts v then ⟨some v⟩ else t

/-- Take note of violations in order. -/
def recordAll (t : Tracker) (vs : List Violation) : Tracker := vs.foldl record t

/-- Whether nothing that comes can change the violation to report. -/
def settled (t : Tracker) : Bool := t.best.any Violation.isDecisive

/-- Success, or the violation to report. -/
def result (t : Tracker) : Except Violation Unit :=
  match t.best with
  | some v => .error v
  | none => .ok ()

end Tracker

end ClassCheck
