import ClassCheck.Classes.Entry
import ClassCheck.Syntax.Program

/-!
# The class table

All classes of a program with what they declare, and the built-in class of input and output.
Building the table finds the first of these violations, in this order: a class name declared
twice anywhere in the program; then class by class a parent that is not declared, and members
that are declared twice.
-/

namespace ClassCheck

/-- Name of the built-in class of input and output. -/
def ioClass : String := "IO"

/-- Name under which the built-in class can be reached everywhere. -/
def ioName : String := "io"

/-- Name of the method that a program starts with. -/
def mainName : String := "main"

/-- The classes of a program. -/
structure ClassTable where
  /-- The classes, each name once. -/
  entries : List ClassEntry
  /-- Whether some class has a method to start with. -/
  hasEntryPoint : Bool
  deriving DecidableEq, Repr

namespace ClassTable

/-- A static built-in method, with a type for each parameter. -/
def builtin (name : String) (result : Option Ty) (params : List Ty) : String × NameSlot :=
  let named := params.mapIdx fun i type => (s!"arg{i}", type)
  (name, ⟨some (.method ⟨result, named, true⟩), none, false⟩)

/-- The built-in class of input and output. -/
def ioEntry : ClassEntry := ⟨ioClass, none, [
  builtin "readInt" (some .int) [],
  builtin "readFloat" (some .float) [],
  builtin "readString" (some .string) [],
  builtin "writeInt" none [.int],
  builtin "writeFloat" none [.float],
  builtin "writeString" none [.string],
  builtin "writeIntLn" none [.int],
  builtin "writeFloatLn" none [.float],
  builtin "writeStrLn" none [.string]]⟩

/-- The class of a name. -/
def get? (t : ClassTable) (name : String) : Option ClassEntry := t.entries.find? (·.name = name)

/-- Whether a class is declared. -/
def contains (t : ClassTable) (name : String) : Bool := (t.get? name).isSome

/-- The first class whose name is among the names seen before it. -/
def repeated? : List String → List ClassDecl → Option ClassDecl
  | _, [] => none
  | seen, c :: cs =>
    if seen.contains c.name.name then some c else repeated? (c.name.name :: seen) cs

/-- The names and types of parameters. -/
def paramTypes (ps : List Param) : List (String × Ty) :=
  ps.map fun p => (p.name, .ofWritten p.type)

/-- Report a name declared twice. -/
def redeclared {α : Type} (subject : String) (span : Span) (added : Except Declared α) :
    Except Violation α :=
  match added with
  | .ok a => .ok a
  | .error what => .error (.broken (.redeclared what) subject span)

/-- Declare attributes that share modifiers and type. -/
def declareAttributes (decl : AttributeDecl) :
    List Declarator → ClassEntry → Except Violation ClassEntry
  | [], e => .ok e
  | d :: ds, e => do
    let info : AttributeInfo :=
      ⟨.ofWritten decl.type, decl.isFinal, decl.isStatic, d.init.isSome⟩
    let e ← redeclared d.name d.span (e.addAttribute d.name info)
    declareAttributes decl ds e

/-- Declare a member of a class. -/
def declareMember (m : Member) (e : ClassEntry) : Except Violation ClassEntry :=
  match m with
  | .attribute decl _ => declareAttributes decl decl.declarators e
  | .method decl span =>
    redeclared decl.name span (e.addMethod decl.name
      ⟨decl.result.map .ofWritten, paramTypes decl.params, decl.isStatic⟩)
  | .ctor decl span =>
    redeclared decl.name span (e.addCtor decl.name
      ⟨some (.object e.name), paramTypes decl.params, false⟩)
  | .dtor decl span => redeclared decl.name span (e.addDtor decl.name)

/-- Declare members in order. -/
def declareMembers : List Member → ClassEntry → Except Violation ClassEntry
  | [], e => .ok e
  | m :: ms, e => do
    let e ← declareMember m e
    declareMembers ms e

/-- Declare a class, given which classes there are. -/
def declareClass (known : List String) (c : ClassDecl) : Except Violation ClassEntry :=
  match c.parent with
  | some parent =>
    if known.contains parent.name then
      declareMembers c.members (.bare c.name.name (some parent.name))
    else .error (.broken .undeclaredClass parent.name parent.span)
  | none => declareMembers c.members (.bare c.name.name none)

/-- Declare classes in order. -/
def declareClasses (known : List String) : List ClassDecl → Except Violation (List ClassEntry)
  | [] => .ok []
  | c :: cs => do
    let e ← declareClass known c
    let es ← declareClasses known cs
    pure (e :: es)

/-- Whether a program can start with a member: a static method of the right name, without
parameters and without a result. -/
def isEntryPoint : Member → Bool
  | .method decl _ =>
    decl.name = mainName && decl.isStatic && decl.params.isEmpty && decl.result.isNone
  | _ => false

/-- The class table of a program, or the first violation that stands in its way. -/
def build (p : Program) : Except Violation ClassTable :=
  match repeated? [ioClass] p.classes with
  | some c => .error (.broken (.redeclared .classType) c.name.name c.name.span)
  | none => do
    let known := ioClass :: p.classes.map fun c => c.name.name
    let entries ← declareClasses known p.classes
    pure ⟨ioEntry :: entries, p.classes.any fun c => c.members.any isEntryPoint⟩

end ClassTable

end ClassCheck
