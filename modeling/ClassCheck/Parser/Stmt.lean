import ClassCheck.Parser.Expr
import ClassCheck.Parser.Type
import ClassCheck.Syntax.Stmt

/-!
# Parsing statements

A statement is told by its first token, except that a declaration and an assignment can both
start with a name: it is a declaration if, after any sizes in brackets, another name or a
reference mark follows. A bound on the nesting makes the recursion structural, as for
expressions.
-/

namespace ClassCheck.Parser

/-- A declared name with its optional initial value. -/
def declarator (bound : Nat) : Parser Declarator := do
  let name ← identifier
  if ← acceptSymbol .assign then
    let init ← expression bound
    pure ⟨name.name, some init, name.span.merge init.span⟩
  else pure ⟨name.name, none, name.span⟩

/-- Declared names with commas between them. -/
def declarators (bound : Nat) : Parser (List Declarator) :=
  separated .comma (declarator bound) bound

/-- The tokens after the array sizes that a token list starts with. -/
def afterSizes : List Token → List Token
  | ⟨.symbol .lbracket, _⟩ :: ⟨.integer _, _⟩ :: ⟨.symbol .rbracket, _⟩ :: ts => afterSizes ts
  | ts => ts

/-- Whether a name or a reference mark comes first. -/
def namesOrRefers : List Token → Bool
  | ⟨.identifier _, _⟩ :: _ | ⟨.symbol .amp, _⟩ :: _ => true
  | _ => false

/-- Whether a token list starts with a local declaration. -/
def startsDeclaration : List Token → Bool
  | ⟨.keyword .kwFinal, _⟩ :: _ => true
  | ⟨.identifier _, _⟩ :: ts => namesOrRefers (afterSizes ts)
  | t :: _ => t.kind.namesPrimitive
  | [] => false

/-- A local declaration. -/
def declaration (bound : Nat) : Parser Stmt := do
  let first ← peek
  let isFinal ← acceptKeyword .kwFinal
  let type ← writtenType bound
  let names ← declarators bound
  let close ← symbol .semi
  pure (.declare isFinal type names (first.span.merge close))

/-- A statement that is one word, after the word at `start`. -/
def bareWord (start : Span) (make : Span → Stmt) : Parser Stmt := do
  let close ← symbol .semi
  pure (make (start.merge close))

/-- A return, after the word at `start`. -/
def returning (bound : Nat) (start : Span) : Parser Stmt := do
  let t ← peek
  if t.kind = .symbol .semi then bareWord start (.returnValue none)
  else
    let value ← expression bound
    bareWord start (.returnValue (some value))

/-- An assignment, after its target and sign. -/
def assignment (bound : Nat) (start : Span) (target : Expr) : Parser Stmt :=
  if target.isPlace then do
    let value ← expression bound
    let close ← symbol .semi
    pure (.assign target value (start.merge close))
  else fail .invalidTarget target.span

/-- An assignment or a method call. -/
def assignmentOrCall (bound : Nat) : Parser Stmt := do
  let first ← peek
  let e ← expression bound
  if ← acceptSymbol .assign then assignment bound first.span e
  else if e.isCall then
    let close ← symbol .semi
    pure (.call e (first.span.merge close))
  else fail .notAStatement e.span

/-- A branch, after the word at `start`. An alternative belongs to the nearest branch. -/
def branch (nested : Parser Stmt) (bound : Nat) (start : Span) : Parser Stmt := do
  let condition ← expression bound
  let _ ← keyword .kwThen
  let thenBranch ← nested
  if ← acceptKeyword .kwElse then
    let elseBranch ← nested
    let stop ← lastSpan
    pure (.ifElse condition thenBranch elseBranch (start.merge stop))
  else
    let stop ← lastSpan
    pure (.ifThen condition thenBranch (start.merge stop))

/-- Which way a loop counts. -/
def direction : Parser Direction := do
  if ← acceptKeyword .kwTo then pure .up
  else if ← acceptKeyword .kwDownto then pure .down
  else failExpected .direction

/-- A counted loop, after the word at `start`. -/
def countedLoop (nested : Parser Stmt) (bound : Nat) (start : Span) : Parser Stmt := do
  let counter ← identifier
  let _ ← symbol .assign
  let first ← expression bound
  let way ← direction
  let last ← expression bound
  let _ ← keyword .kwDo
  let body ← nested
  pure (.loop counter first last way body (start.merge body.span))

/-- Whether a token ends the statements of a block. -/
def endsBlock (kind : TokenKind) : Bool := kind = .symbol .rbrace || kind = .eof

/-- Statements in braces. -/
def blockOf (nested : Parser Stmt) (bound : Nat) : Parser Block := do
  let start ← symbol .lbrace
  let stmts ← manyUntil endsBlock nested bound
  let close ← symbol .rbrace
  pure ⟨stmts, start.merge close⟩

/-- A statement that is told by its first token, or a declaration, or what is left. -/
def statementOf (nested : Parser Stmt) (bound : Nat) : Parser Stmt := do
  let t ← peek
  match t.kind with
  | .symbol .lbrace =>
    let block ← blockOf nested bound
    pure (.block block.stmts block.span)
  | .keyword .kwIf =>
    let _ ← advance
    branch nested bound t.span
  | .keyword .kwFor =>
    let _ ← advance
    countedLoop nested bound t.span
  | .keyword .kwBreak =>
    let _ ← advance
    bareWord t.span .breakLoop
  | .keyword .kwContinue =>
    let _ ← advance
    bareWord t.span .continueLoop
  | .keyword .kwReturn =>
    let _ ← advance
    returning bound t.span
  | _ =>
    let ahead ← peekAll
    if startsDeclaration ahead then declaration bound else assignmentOrCall bound

/-- A statement that nests no deeper than the bound. -/
def statement : Nat → Parser Stmt
  | 0 => exhausted
  | bound + 1 => statementOf (statement bound) (bound + 1)

/-- The body of a member. -/
def block (bound : Nat) : Parser Block := blockOf (statement bound) bound

end ClassCheck.Parser
