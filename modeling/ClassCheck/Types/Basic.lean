import ClassCheck.Syntax.Type

/-!
# Types

Types without the places they were written at, and what an expression can evaluate to. A
reference to a type is an alias of a place of that type; everywhere but at an argument or a
declared name it decays to the type it refers to.
-/

namespace ClassCheck

/-- A type. -/
inductive Ty where
  /-- A primitive type. -/
  | primitive (type : Primitive)
  /-- The objects of a class. -/
  | object (className : String)
  /-- Arrays of a fixed size. -/
  | array (element : Ty) (size : Nat)
  /-- References to places of a type. -/
  | reference (referent : Ty)
  deriving DecidableEq, Repr

namespace Ty

/-- Whole numbers. -/
abbrev int : Ty := .primitive .int

/-- Floating-point numbers. -/
abbrev float : Ty := .primitive .float

/-- Truth values. -/
abbrev boolean : Ty := .primitive .boolean

/-- Texts. -/
abbrev string : Ty := .primitive .string

/-- The type that a written type stands for. -/
def ofWritten : WrittenType → Ty
  | .primitive type _ => .primitive type
  | .named name _ => .object name
  | .array element size _ => .array (ofWritten element) size
  | .reference referent _ => .reference (ofWritten referent)

/-- The type in source form. -/
def text : Ty → String
  | .primitive type => type.text
  | .object className => className
  | .array element size => s!"{element.text}[{size}]"
  | .reference referent => referent.text ++ "&"

/-- The type that references lead to. -/
def decayed : Ty → Ty
  | .reference referent => referent.decayed
  | type => type

/-- Whether the type is a reference. -/
def isReference : Ty → Bool
  | .reference _ => true
  | _ => false

/-- Whether the type is that of whole numbers, references aside. -/
def isInt (type : Ty) : Bool := type.decayed = int

/-- Whether the type is one of the number types, references aside. -/
def isNumeric (type : Ty) : Bool := type.decayed = int || type.decayed = float

/-- Whether the type is that of truth values, references aside. -/
def isBoolean (type : Ty) : Bool := type.decayed = boolean

/-- Whether the type is that of texts, references aside. -/
def isString (type : Ty) : Bool := type.decayed = string

/-- Whether the null value belongs to the type: a class or an array, references aside. -/
def isNullable (type : Ty) : Bool :=
  match type.decayed with
  | .object _ | .array .. => true
  | _ => false

/-- Whether two types are equal, references aside. -/
def same (a b : Ty) : Bool := a.decayed = b.decayed

end Ty

/-- What an expression evaluates to. -/
inductive ExprTy where
  /-- A value of a type. -/
  | known (type : Ty)
  /-- The null value. -/
  | nil
  /-- Nothing: the result of a method without one. -/
  | void
  /-- A class, named to reach its static members. -/
  | classRef (className : String)
  /-- Not known, because a violation was found in the expression. -/
  | unknown
  deriving DecidableEq, Repr

namespace ExprTy

/-- A value read from a place of this type. -/
def value (type : Ty) : ExprTy := .known type.decayed

/-- Whether nothing is known. -/
def isUnknown : ExprTy → Bool
  | .unknown => true
  | _ => false

/-- The type of the value, if it is known. -/
def known? : ExprTy → Option Ty
  | .known type => some type
  | _ => none

/-- Whether the expression may stand for a whole number. -/
def admitsInt : ExprTy → Bool
  | .known type => type.isInt
  | .unknown => true
  | _ => false

/-- Whether the expression may stand for a truth value. -/
def admitsBoolean : ExprTy → Bool
  | .known type => type.isBoolean
  | .unknown => true
  | _ => false

end ExprTy

end ClassCheck
