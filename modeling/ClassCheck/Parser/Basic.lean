import ClassCheck.Syntax.Type
import ClassCheck.Token.Basic

/-!
# Parsers over a token list

A parser reads tokens from a cursor and answers with a value and the cursor after it, or with
the first syntax error and the cursor where it stopped. The cursor is over all tokens, ends of
file among them, and stays at the first of these. Repetition takes a bound on the number of
rounds, and to run out of rounds is a fault of its own; since every round consumes a token, a
bound greater than the number of tokens is never used up.
-/

namespace ClassCheck

/-- What a parser can ask for. -/
inductive Expectation where
  /-- A certain word or sign. -/
  | token (kind : TokenKind)
  | identifier
  | member
  | type
  | arraySize
  | direction
  | expression
  deriving DecidableEq, Repr

/-- How a message names what was asked for. -/
def Expectation.text : Expectation → String
  | .token kind => kind.describe
  | .identifier => "identifier"
  | .member => "member declaration"
  | .type => "type"
  | .arraySize => "array size"
  | .direction => "'to' or 'downto'"
  | .expression => "expression"

/-- Why a token list is no program. -/
inductive SyntaxFault where
  /-- Something else stands where this was asked for. -/
  | expected (what : Expectation) (found : TokenKind)
  /-- An array size does not fit. -/
  | arraySizeRange
  /-- A method is declared final. -/
  | finalMethod
  /-- An attribute is declared without a type. -/
  | voidAttribute
  /-- The left side of an assignment is no place. -/
  | invalidTarget
  /-- An expression stands where a statement was asked for. -/
  | notAStatement
  /-- An integer literal does not fit. -/
  | integerRange (text : String)
  /-- A text is no floating-point literal. -/
  | invalidFloat (text : String)
  /-- A text is no string literal. -/
  | malformedString
  /-- A string literal has an escape that is not one of the seven. -/
  | unknownEscape (c : Char)
  /-- A string literal ends in the middle of an escape. -/
  | danglingEscape
  /-- The bound on rounds and nesting is used up. -/
  | exhausted
  deriving DecidableEq, Repr

/-- What the fault says. -/
def SyntaxFault.message : SyntaxFault → String
  | .expected what found => s!"expected {what.text}, found {found.describe}"
  | .arraySizeRange => "array size out of range"
  | .finalMethod => "methods cannot be final"
  | .voidAttribute => "attributes cannot be void"
  | .invalidTarget => "invalid assignment target"
  | .notAStatement => "expected assignment or method call statement"
  | .integerRange text => s!"integer literal '{text}' out of range"
  | .invalidFloat text => s!"invalid float literal '{text}'"
  | .malformedString => "malformed string literal"
  | .unknownEscape c => s!"unknown escape sequence '\\{c}'"
  | .danglingEscape => "dangling escape"
  | .exhausted => "nested too deeply"

/-- A syntax fault and where it stands. -/
structure SyntaxError where
  /-- What is wrong. -/
  fault : SyntaxFault
  /-- Where. -/
  span : Span
  deriving DecidableEq, Repr

/-- The place of a parser in a token list. -/
structure Cursor where
  /-- The tokens that are left, ends of file among them. -/
  tokens : List Token
  /-- Where the end of file stands that is supplied behind all tokens. -/
  supplied : Span
  /-- The span of the token consumed last; before the first one, of the token ahead. -/
  last : Span
  deriving DecidableEq, Repr

namespace Cursor

/-- The token ahead. -/
def current (c : Cursor) : Token := c.tokens.head?.getD ⟨.eof, c.supplied⟩

/-- The cursor at the start of a token list. The end of file that is supplied behind the list
matters only if there is none in it. -/
def ofTokens (ts : List Token) : Cursor :=
  let supplied := .point ((ts.getLast?.map (·.span.stop)).getD 0)
  ⟨ts, supplied, (ts.head?.map Token.span).getD supplied⟩

/-- The cursor after the token ahead; at an end of file it stays. -/
def advance (c : Cursor) : Cursor :=
  match c.tokens with
  | [] => c
  | t :: ts => if t.kind = .eof then c else ⟨ts, c.supplied, t.span⟩

/-- The tokens ahead, up to the first end of file. -/
def ahead (c : Cursor) : List Token := c.tokens.takeWhile (·.kind ≠ .eof)

/-- Where the first end of file stands. -/
def stop (c : Cursor) : Span := ((c.tokens.find? (·.kind = .eof)).map Token.span).getD c.supplied

end Cursor

/-- A syntax error, and the cursor where the parser stopped. -/
structure Rejection where
  /-- The syntax error. -/
  error : SyntaxError
  /-- Where the parser stopped. -/
  cursor : Cursor
  deriving DecidableEq, Repr

/-- A function that reads a value from a cursor. -/
def Parser (α : Type) : Type := Cursor → Except Rejection (α × Cursor)

namespace Parser

instance : Monad Parser where
  pure a := fun c => .ok (a, c)
  bind p f := fun c =>
    match p c with
    | .ok (a, c) => f a c
    | .error r => .error r

theorem pure_apply {α : Type} (a : α) (c : Cursor) : (pure a : Parser α) c = .ok (a, c) := rfl

theorem bind_apply {α β : Type} (p : Parser α) (f : α → Parser β) (c : Cursor) :
    (p >>= f) c = match p c with
      | .ok (a, c) => f a c
      | .error r => .error r := rfl

/-- The value that a parser reads, or its syntax error. -/
def run {α : Type} (p : Parser α) (c : Cursor) : Except SyntaxError α :=
  match p c with
  | .ok (a, _) => .ok a
  | .error r => .error r.error

/-- A parser runs to a value just if it yields it with some tokens left. -/
theorem run_eq_ok_iff {α : Type} {p : Parser α} {c : Cursor} {a : α} :
    p.run c = .ok a ↔ ∃ c', p c = .ok (a, c') := by
  rw [run]
  cases p c with
  | error r => simp
  | ok answer =>
    obtain ⟨b, c'⟩ := answer
    simp

/-- The token ahead, left where it is. -/
def peek : Parser Token := fun c => .ok (c.current, c)

/-- All tokens that are left, left where they are. -/
def peekAll : Parser (List Token) := fun c => .ok (c.tokens, c)

/-- The span of the token consumed last. -/
def lastSpan : Parser Span := fun c => .ok (c.last, c)

/-- Consume the token ahead; the end of file stays. -/
def advance : Parser Token := fun c => .ok (c.current, c.advance)

/-- Fail at a given place. -/
def fail {α : Type} (fault : SyntaxFault) (span : Span) : Parser α :=
  fun c => .error ⟨⟨fault, span⟩, c⟩

/-- Fail at the token ahead, which is not what was asked for. -/
def failExpected {α : Type} (what : Expectation) : Parser α := do
  let t ← peek
  fail (.expected what t.kind) t.span

/-- Fail because no rounds are left. -/
def exhausted {α : Type} : Parser α := do
  let t ← peek
  fail .exhausted t.span

/-- Consume the token ahead if it is this one, and say whether it was. -/
def accept (kind : TokenKind) : Parser Bool := do
  let t ← peek
  if t.kind = kind then
    let _ ← advance
    pure true
  else pure false

/-- Consume the token ahead, which has to be this one, and give its span. -/
def expect (kind : TokenKind) : Parser Span := do
  let t ← peek
  if t.kind = kind then
    let t ← advance
    pure t.span
  else failExpected (.token kind)

/-- Consume this sign if it is ahead. -/
def acceptSymbol (sign : Symbol) : Parser Bool := accept (.symbol sign)

/-- Consume this word if it is ahead. -/
def acceptKeyword (word : Keyword) : Parser Bool := accept (.keyword word)

/-- Consume this sign. -/
def symbol (sign : Symbol) : Parser Span := expect (.symbol sign)

/-- Consume this word. -/
def keyword (word : Keyword) : Parser Span := expect (.keyword word)

/-- Consume a name. -/
def identifier : Parser Ident := do
  let t ← peek
  match t.kind with
  | .identifier name =>
    let _ ← advance
    pure ⟨name, t.span⟩
  | _ => failExpected .identifier

/-- Items with a sign between them, at least one; `bound` limits how many. -/
def separated {α : Type} (sign : Symbol) (item : Parser α) : Nat → Parser (List α)
  | 0 => exhausted
  | bound + 1 => do
    let a ← item
    if ← acceptSymbol sign then
      let rest ← separated sign item bound
      pure (a :: rest)
    else pure [a]

/-- Items up to a token that ends them, which stays ahead; `bound` limits how often to look. -/
def manyUntil {α : Type} (ends : TokenKind → Bool) (item : Parser α) : Nat → Parser (List α)
  | 0 => exhausted
  | bound + 1 => do
    let t ← peek
    if ends t.kind then pure []
    else
      let a ← item
      let rest ← manyUntil ends item bound
      pure (a :: rest)

end Parser

end ClassCheck
