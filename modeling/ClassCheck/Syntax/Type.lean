import ClassCheck.Span

/-!
# Written types

A type as it stands in the source: a primitive type or a class by name, array sizes
after it, and at most one reference mark. The tree admits any nesting; the parser yields a
reference only as the outermost layer.
-/

namespace ClassCheck

/-- A name and where it stands. -/
structure Ident where
  /-- The name. -/
  name : String
  /-- Where it stands. -/
  span : Span
  deriving DecidableEq, Repr

/-- The primitive types. -/
inductive Primitive where
  | int | float | boolean | string
  deriving DecidableEq, Repr

/-- How a primitive type is written. -/
def Primitive.text : Primitive → String
  | .int => "int"
  | .float => "float"
  | .boolean => "boolean"
  | .string => "string"

/-- A type as it is written. -/
inductive WrittenType where
  /-- A primitive type. -/
  | primitive (type : Primitive) (span : Span)
  /-- A class by its name. -/
  | named (name : String) (span : Span)
  /-- An array of fixed size. -/
  | array (element : WrittenType) (size : Nat) (span : Span)
  /-- A reference. -/
  | reference (referent : WrittenType) (span : Span)
  deriving DecidableEq, Repr

namespace WrittenType

/-- Where the type stands. -/
def span : WrittenType → Span
  | .primitive _ span | .named _ span | .array _ _ span | .reference _ span => span

/-- Whether the outermost layer is a reference. -/
def isReference : WrittenType → Bool
  | .reference .. => true
  | _ => false

/-- The class named inside the type, looked for through arrays and references. -/
def className? : WrittenType → Option Ident
  | .primitive .. => none
  | .named name span => some ⟨name, span⟩
  | .array element _ _ => element.className?
  | .reference referent _ => referent.className?

/-- The type in source form. -/
def render : WrittenType → String
  | .primitive type _ => type.text
  | .named name _ => name
  | .array element size _ => s!"{element.render}[{size}]"
  | .reference referent _ => referent.render ++ "&"

end WrittenType

end ClassCheck
