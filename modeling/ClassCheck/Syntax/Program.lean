import ClassCheck.Syntax.Stmt

/-!
# Programs

A program is a list of classes, and a class a list of members: attributes, methods,
constructors and destructors.
-/

namespace ClassCheck

/-- A formal parameter; its span is that of the name. -/
structure Param where
  /-- The name. -/
  name : String
  /-- The written type, shared by the parameters declared together. -/
  type : WrittenType
  /-- Where the name stands. -/
  span : Span
  deriving Repr

/-- Attributes declared together. -/
structure AttributeDecl where
  /-- Whether they belong to the class itself. -/
  isStatic : Bool
  /-- Whether they are constants. -/
  isFinal : Bool
  /-- The written type. -/
  type : WrittenType
  /-- The names with their initial values. -/
  declarators : List Declarator
  deriving Repr

/-- A method. -/
structure MethodDecl where
  /-- Whether it belongs to the class itself. -/
  isStatic : Bool
  /-- The written type of its result; none if it has no result. -/
  result : Option WrittenType
  /-- The name. -/
  name : String
  /-- The formal parameters. -/
  params : List Param
  /-- The body. -/
  body : Block
  deriving Repr

/-- A constructor. -/
structure CtorDecl where
  /-- The name, which should be that of the class. -/
  name : String
  /-- The formal parameters. -/
  params : List Param
  /-- The body. -/
  body : Block
  deriving Repr

/-- A destructor. -/
structure DtorDecl where
  /-- The name, which should be that of the class. -/
  name : String
  /-- The body. -/
  body : Block
  deriving Repr

/-- A member of a class. -/
inductive Member where
  /-- Attributes declared together. -/
  | attribute (decl : AttributeDecl) (span : Span)
  /-- A method. -/
  | method (decl : MethodDecl) (span : Span)
  /-- A constructor. -/
  | ctor (decl : CtorDecl) (span : Span)
  /-- A destructor. -/
  | dtor (decl : DtorDecl) (span : Span)
  deriving Repr

/-- A class. -/
structure ClassDecl where
  /-- The name. -/
  name : Ident
  /-- The class it extends. -/
  parent : Option Ident
  /-- The members in order. -/
  members : List Member
  /-- From the word `class` to the closing brace. -/
  span : Span
  deriving Repr

/-- A program. -/
structure Program where
  /-- The classes in order. -/
  classes : List ClassDecl
  /-- The whole text from its first token on. -/
  span : Span
  deriving Repr

/-- A parameter in source form. -/
def Param.render (p : Param) : String := p.type.render ++ " " ++ p.name

/-- A parameter list in source form. -/
def Param.renderAll (ps : List Param) : String :=
  "(" ++ ", ".intercalate (ps.map Param.render) ++ ")"

/-- Attributes in source form. -/
def AttributeDecl.render (a : AttributeDecl) : String :=
  (if a.isStatic then "static " else "") ++ (if a.isFinal then "final " else "") ++
    a.type.render ++ " " ++ Declarator.renderAll a.declarators

/-- A method in source form. -/
def MethodDecl.render (m : MethodDecl) : String :=
  (if m.isStatic then "static " else "") ++ (m.result.map WrittenType.render).getD "void" ++
    " " ++ m.name ++ Param.renderAll m.params ++ " " ++ m.body.render

/-- A constructor in source form. -/
def CtorDecl.render (c : CtorDecl) : String :=
  c.name ++ Param.renderAll c.params ++ " " ++ c.body.render

/-- A destructor in source form. -/
def DtorDecl.render (d : DtorDecl) : String := "~" ++ d.name ++ "() " ++ d.body.render

namespace Member

/-- Where the member stands. -/
def span : Member → Span
  | .attribute _ span | .method _ span | .ctor _ span | .dtor _ span => span

/-- A member in source form. -/
def render : Member → String
  | .attribute decl _ => decl.render
  | .method decl _ => decl.render
  | .ctor decl _ => decl.render
  | .dtor decl _ => decl.render

end Member

/-- A class in source form, one member on each line. -/
def ClassDecl.render (c : ClassDecl) : String :=
  let parent := match c.parent with
    | some parent => " extends " ++ parent.name
    | none => ""
  let body := match c.members with
    | [] => "\x7b\x7d"
    | ms => "\x7b\n" ++ String.join (ms.map fun m => "    " ++ m.render ++ "\n") ++ "\x7d"
  "class " ++ c.name.name ++ parent ++ " " ++ body

/-- A program in source form. -/
def Program.render (p : Program) : String := "\n".intercalate (p.classes.map ClassDecl.render)

end ClassCheck
