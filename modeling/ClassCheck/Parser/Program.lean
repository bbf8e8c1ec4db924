import ClassCheck.Parser.Stmt
import ClassCheck.Syntax.Program

/-!
# Parsing programs

Members are told apart by what follows their first tokens: a tilde starts a destructor, a name
with an opening parenthesis behind it a constructor, and after modifiers and a type a name
with an opening parenthesis behind it a method. What is left is an attribute.
-/

namespace ClassCheck.Parser

/-- Parameters of one type. -/
def paramGroup (bound : Nat) : Parser (List Param) := do
  let type ← writtenType bound
  let names ← separated .comma identifier bound
  pure (names.map fun name => ⟨name.name, type, name.span⟩)

/-- Parameters in parentheses, the groups of one type with semicolons between them. -/
def params (bound : Nat) : Parser (List Param) := do
  let _ ← symbol .lparen
  let t ← peek
  let groups ←
    if t.kind = .symbol .rparen then pure [] else separated .semi (paramGroup bound) bound
  let _ ← symbol .rparen
  pure groups.flatten

/-- Whether a token list starts with a name and an opening parenthesis. -/
def startsNamedParens : List Token → Bool
  | ⟨.identifier _, _⟩ :: ⟨.symbol .lparen, _⟩ :: _ => true
  | _ => false

/-- The modifiers before a member, in any order and number. -/
structure Modifiers where
  /-- The member belongs to the class itself. -/
  isStatic : Bool
  /-- The member is a constant. -/
  isFinal : Bool
  deriving DecidableEq, Repr

/-- Read modifiers; `rounds` limits how often to look for one. -/
def modifiers : Nat → Modifiers → Parser Modifiers
  | 0, _ => exhausted
  | rounds + 1, m => do
    if ← acceptKeyword .kwStatic then modifiers rounds ⟨true, m.isFinal⟩
    else if ← acceptKeyword .kwFinal then modifiers rounds ⟨m.isStatic, true⟩
    else pure m

/-- A destructor, after the tilde at `start`. -/
def destructor (bound : Nat) (start : Span) : Parser Member := do
  let name ← identifier
  let _ ← symbol .lparen
  let _ ← symbol .rparen
  let body ← block bound
  pure (.dtor ⟨name.name, body⟩ (start.merge body.span))

/-- A constructor. -/
def constructorDecl (bound : Nat) (start : Span) : Parser Member := do
  let name ← identifier
  let formals ← params bound
  let body ← block bound
  pure (.ctor ⟨name.name, formals, body⟩ (start.merge body.span))

/-- A method, after its modifiers and result type. -/
def methodDecl (bound : Nat) (start : Span) (isStatic : Bool) (result : Option WrittenType) :
    Parser Member := do
  let name ← identifier
  let formals ← params bound
  let body ← block bound
  pure (.method ⟨isStatic, result, name.name, formals, body⟩ (start.merge body.span))

/-- Attributes, after their modifiers and type. -/
def attributeDecl (bound : Nat) (start : Span) (m : Modifiers) (type : WrittenType) :
    Parser Member := do
  let names ← declarators bound
  let close ← symbol .semi
  pure (.attribute ⟨m.isStatic, m.isFinal, type, names⟩ (start.merge close))

/-- A type, or none after the word for no result. -/
def resultType (bound : Nat) : Parser (Option WrittenType) := do
  if ← acceptKeyword .kwVoid then pure none
  else
    let type ← writtenType bound
    pure (some type)

/-- A method or attributes, with modifiers and a type before them. -/
def typedMember (bound : Nat) (start : Span) : Parser Member := do
  let m ← modifiers bound ⟨false, false⟩
  let result ← resultType bound
  let ahead ← peekAll
  if startsNamedParens ahead then
    if m.isFinal then fail .finalMethod start
    else methodDecl bound start m.isStatic result
  else match result with
    | some type => attributeDecl bound start m type
    | none => fail .voidAttribute start

/-- A member of a class. -/
def member (bound : Nat) : Parser Member := do
  let t ← peek
  let ahead ← peekAll
  if t.kind.startsMember then
    if ← acceptSymbol .tilde then destructor bound t.span
    else if startsNamedParens ahead then constructorDecl bound t.span
    else typedMember bound t.span
  else failExpected .member

/-- Whether a token ends the members of a class. -/
def endsClass (kind : TokenKind) : Bool := kind = .symbol .rbrace

/-- The class that a class extends. -/
def parentClass : Parser (Option Ident) := do
  if ← acceptKeyword .kwExtends then
    let parent ← identifier
    pure (some parent)
  else pure none

/-- A class. -/
def classDecl (bound : Nat) : Parser ClassDecl := do
  let start ← keyword .kwClass
  let name ← identifier
  let parent ← parentClass
  let _ ← symbol .lbrace
  let members ← manyUntil endsClass (member bound) bound
  let close ← symbol .rbrace
  pure ⟨name, parent, members, start.merge close⟩

/-- Whether a token ends the classes of a program. -/
def endsProgram (kind : TokenKind) : Bool := kind = .eof

/-- A program. -/
def program (bound : Nat) : Parser Program := do
  let first ← peek
  let classes ← manyUntil endsProgram (classDecl bound) bound
  let stop ← peek
  pure ⟨classes, first.span.merge stop.span⟩

end ClassCheck.Parser

namespace ClassCheck

/-- The program that a token list spells, up to its first end of file, or the first syntax
error. -/
def Program.ofTokens (ts : List Token) : Except SyntaxError Program :=
  (Parser.program (ts.length + 1)).run (Cursor.ofTokens ts)

end ClassCheck
