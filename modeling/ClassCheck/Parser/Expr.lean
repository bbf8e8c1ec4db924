import ClassCheck.Parser.Literal
import ClassCheck.Syntax.Expr

/-!
# Parsing expressions

Each layer of the grammar is a parser built from the layer below it. Below all stand the
primary expressions, then the selections behind them, the signs before them, and seven levels
of binary operators, each grouping to the left. Expressions nest through parentheses, array
literals, indices and arguments; a bound on the nesting makes the recursion structural, and a
bound greater than the number of tokens is never used up.
-/

namespace ClassCheck.Parser

/-- Arguments in parentheses. -/
def arguments (nested : Parser Expr) (bound : Nat) : Parser (List Expr) := do
  let _ ← symbol .lparen
  let t ← peek
  let args ← if t.kind = .symbol .rparen then pure [] else separated .comma nested bound
  let _ ← symbol .rparen
  pure args

/-- A new object: the class name and the arguments, after the word at `start`. -/
def creation (nested : Parser Expr) (bound : Nat) (start : Span) : Parser Expr := do
  let className ← identifier
  let args ← arguments nested bound
  let close ← lastSpan
  pure (.create className.name args (start.merge close))

/-- An expression in parentheses, after the sign at `start`. -/
def parenthesized (nested : Parser Expr) (start : Span) : Parser Expr := do
  let inner ← nested
  let close ← symbol .rparen
  pure (.paren inner (start.merge close))

/-- The elements of an array literal, after the brace at `start`. -/
def arrayElements (nested : Parser Expr) (bound : Nat) (start : Span) : Parser Expr := do
  let elements ← separated .comma nested bound
  let close ← symbol .rbrace
  pure (.array elements (start.merge close))

/-- An expression that needs no operator. -/
def primary (nested : Parser Expr) (bound : Nat) : Parser Expr := do
  let t ← peek
  match t.kind with
  | .integer text =>
    let _ ← advance
    let value ← lift (integerValue text) t.span
    pure (.int value t.span)
  | .float text =>
    let _ ← advance
    let value ← lift (floatValue text) t.span
    pure (.float value t.span)
  | .string text =>
    let _ ← advance
    let value ← lift (stringValue text) t.span
    pure (.string value t.span)
  | .identifier name =>
    let _ ← advance
    pure (.ident name t.span)
  | .keyword .kwTrue =>
    let _ ← advance
    pure (.bool true t.span)
  | .keyword .kwFalse =>
    let _ ← advance
    pure (.bool false t.span)
  | .keyword .kwNil =>
    let _ ← advance
    pure (.nil t.span)
  | .keyword .kwThis =>
    let _ ← advance
    pure (.self t.span)
  | .keyword .kwNew =>
    let _ ← advance
    creation nested bound t.span
  | .symbol .lparen =>
    let _ ← advance
    parenthesized nested t.span
  | .symbol .lbrace =>
    let _ ← advance
    arrayElements nested bound t.span
  | _ => failExpected .expression

/-- The member selected behind a dot: a call if arguments follow, else an attribute. -/
def memberOf (nested : Parser Expr) (bound : Nat) (object : Expr) : Parser Expr := do
  let name ← identifier
  let t ← peek
  if t.kind = .symbol .lparen then
    let args ← arguments nested bound
    let close ← lastSpan
    pure (.call object name.name args (object.span.merge close))
  else pure (.field object name.name (object.span.merge name.span))

/-- The element selected behind a bracket. -/
def elementOf (nested : Parser Expr) (object : Expr) : Parser Expr := do
  let position ← nested
  let close ← symbol .rbracket
  pure (.index object position (object.span.merge close))

/-- The selections behind an expression; `rounds` limits how often to look for one. -/
def selections (nested : Parser Expr) (bound : Nat) : Nat → Expr → Parser Expr
  | 0, _ => exhausted
  | rounds + 1, e => do
    if ← acceptSymbol .dot then
      let e ← memberOf nested bound e
      selections nested bound rounds e
    else if ← acceptSymbol .lbracket then
      let e ← elementOf nested e
      selections nested bound rounds e
    else pure e

/-- A primary expression with the selections behind it. -/
def selected (nested : Parser Expr) (bound : Nat) : Parser Expr := do
  let e ← primary nested bound
  selections nested bound bound e

/-- The unary operator that a token stands for. -/
def unaryOp? : TokenKind → Option UnaryOp
  | .symbol .bang => some .not
  | .symbol .minus => some .neg
  | .symbol .plus => some .plus
  | _ => none

/-- An expression with unary operators before it; `rounds` limits how often to look for one. -/
def signed (nested : Parser Expr) (bound : Nat) : Nat → Parser Expr
  | 0 => exhausted
  | rounds + 1 => do
    let t ← peek
    match unaryOp? t.kind with
    | some op =>
      let _ ← advance
      let operand ← signed nested bound rounds
      pure (.unary op operand (t.span.merge operand.span))
    | none => selected nested bound

/-- The binary operators of one level of precedence, by their tokens. -/
abbrev Level := TokenKind → Option BinaryOp

/-- The levels of precedence, the loosest first. -/
def levels : List Level := [
  fun
    | .symbol .orOr => some .or
    | _ => none,
  fun
    | .symbol .andAnd => some .and
    | _ => none,
  fun
    | .symbol .eqEq => some .eq
    | .symbol .notEq => some .ne
    | _ => none,
  fun
    | .symbol .less => some .lt
    | .symbol .greater => some .gt
    | .symbol .lessEq => some .le
    | .symbol .greaterEq => some .ge
    | _ => none,
  fun
    | .symbol .caret => some .concat
    | _ => none,
  fun
    | .symbol .plus => some .add
    | .symbol .minus => some .sub
    | _ => none,
  fun
    | .symbol .star => some .mul
    | .symbol .slash => some .div
    | .symbol .backslash => some .intDiv
    | .symbol .percent => some .mod
    | _ => none]

/-- The operations of one level behind a first operand, grouped to the left; `rounds` limits how
often to look for one. -/
def operations (level : Level) (operand : Parser Expr) : Nat → Expr → Parser Expr
  | 0, _ => exhausted
  | rounds + 1, left => do
    let t ← peek
    match level t.kind with
    | some op =>
      let _ ← advance
      let right ← operand
      operations level operand rounds (.binary op left right (left.span.merge right.span))
    | none => pure left

/-- The operands of one level with its operations. -/
def leftGrouped (level : Level) (operand : Parser Expr) (bound : Nat) : Parser Expr := do
  let left ← operand
  operations level operand bound left

/-- All levels of binary operators above the signed expressions. -/
def layered (nested : Parser Expr) (bound : Nat) : Parser Expr :=
  levels.foldr (fun level operand => leftGrouped level operand bound) (signed nested bound bound)

/-- An expression that nests no deeper than the bound. -/
def expression : Nat → Parser Expr
  | 0 => exhausted
  | bound + 1 => layered (expression bound) (bound + 1)

end ClassCheck.Parser
