import ClassCheck.Token.Basic

/-!
# Lexemes

Where the next lexeme of a text ends. Blanks and comments are trivia; every other text starts
with a lexeme of at least one character, and the longest one is taken: a number does not stop
before its fraction or exponent, a word not before its last letter, a sign not before its
second character. What starts no token is a lexeme too, of a faulty shape, so that reading can
go on after it. Lengths count characters, and a lexeme is always cut off with `take` and
`drop`, so no character of the text is lost or read twice.
-/

namespace ClassCheck

namespace Lexeme

/-- The characters that only separate tokens. -/
def isBlank (c : Char) : Bool :=
  c = ' ' || c = '\t' || c = '\n' || c = '\r' || c = '\x0c'

/-- The characters a word can start with. -/
def isWordStart (c : Char) : Bool := c.isAlpha || c = '_'

/-- The characters a word can go on with. -/
def isWordChar (c : Char) : Bool := c.isAlphanum || c = '_'

/-- How many characters at the front of a text meet a condition. -/
def runLength (p : Char → Bool) (cs : List Char) : Nat := (cs.takeWhile p).length

/-! ## Trivia -/

/-- Length of the rest of a block comment, up to and with its first closing mark. -/
def commentLength? : List Char → Option Nat
  | '*' :: '/' :: _ => some 2
  | _ :: cs => (commentLength? cs).map (· + 1)
  | [] => none

/-- Length of the run of blanks or of the closed comment that a text starts with; zero if it
starts with neither. -/
def triviumLength : List Char → Nat
  | [] => 0
  | c :: cs =>
    if isBlank c then 1 + runLength isBlank cs
    else if c = '#' then 1 + runLength (· ≠ '\n') cs
    else match c, cs with
      | '/', '*' :: rest => ((commentLength? rest).map (· + 2)).getD 0
      | _, _ => 0

/-- Length of all trivia that a text starts with. -/
def triviaLength (cs : List Char) : Nat :=
  match h : triviumLength cs with
  | 0 => 0
  | n + 1 => n + 1 + triviaLength (cs.drop (n + 1))
termination_by cs.length
decreasing_by
  cases cs with
  | nil => simp [triviumLength] at h
  | cons c cs => simp only [List.length_drop, List.length_cons]; omega

/-! ## Lexemes -/

/-- The shapes of lexemes. -/
inductive Shape where
  /-- A keyword or a name. -/
  | word
  /-- An integer literal. -/
  | integer
  /-- A floating-point literal. -/
  | float
  /-- A closed string literal. -/
  | string
  /-- A sign. -/
  | sign (symbol : Symbol)
  /-- A string literal that is not closed on its line. -/
  | openString
  /-- A block comment that is never closed. -/
  | openComment
  /-- A character that starts no token. -/
  | stray
  deriving DecidableEq, Repr

/-- Length of the exponent part that a text starts with: a mark, an optional sign and at least
one digit. Zero if there is none. -/
def exponentLength : List Char → Nat
  | [] => 0
  | mark :: cs =>
    if mark = 'e' ∨ mark = 'E' then
      let signed := match cs with
        | '+' :: _ | '-' :: _ => 1
        | _ => 0
      match runLength Char.isDigit (cs.drop signed) with
      | 0 => 0
      | n + 1 => 1 + signed + (n + 1)
    else 0

/-- Shape of a number and its length after the first digit. -/
def numberTail (cs : List Char) : Shape × Nat :=
  let whole := runLength Char.isDigit cs
  match cs.drop whole with
  | '.' :: rest =>
    let fraction := runLength Char.isDigit rest
    (.float, whole + 1 + fraction + exponentLength (rest.drop fraction))
  | rest =>
    match exponentLength rest with
    | 0 => (.integer, whole)
    | n + 1 => (.float, whole + (n + 1))

/-- Length of the longest run of complete string items: a character other than a quote, a
backslash or a line feed, or a backslash with any character after it but a line feed. -/
def itemsLength : List Char → Nat
  | '\\' :: c :: cs => if c = '\n' then 0 else itemsLength cs + 2
  | c :: cs => if c = '"' ∨ c = '\\' ∨ c = '\n' then 0 else itemsLength cs + 1
  | [] => 0

/-- Shape of a string and its length after the opening quote. -/
def stringTail (cs : List Char) : Shape × Nat :=
  let items := itemsLength cs
  match cs.drop items with
  | '"' :: _ => (.string, items + 1)
  | _ => (.openString, items)

/-- The sign written with these two characters. -/
def pairSymbol? : Char → Char → Option Symbol
  | ':', '=' => some .assign
  | '=', '=' => some .eqEq
  | '!', '=' => some .notEq
  | '<', '=' => some .lessEq
  | '>', '=' => some .greaterEq
  | '&', '&' => some .andAnd
  | '|', '|' => some .orOr
  | _, _ => none

/-- The sign written with this character alone. -/
def singleSymbol? : Char → Option Symbol
  | '+' => some .plus
  | '-' => some .minus
  | '*' => some .star
  | '/' => some .slash
  | '\\' => some .backslash
  | '%' => some .percent
  | '<' => some .less
  | '>' => some .greater
  | '!' => some .bang
  | '^' => some .caret
  | '&' => some .amp
  | '~' => some .tilde
  | '(' => some .lparen
  | ')' => some .rparen
  | '[' => some .lbracket
  | ']' => some .rbracket
  | '\x7b' => some .lbrace
  | '\x7d' => some .rbrace
  | ';' => some .semi
  | ',' => some .comma
  | '.' => some .dot
  | _ => none

/-- Shape of what starts with a single sign or with no token at all. -/
def singleTail (c : Char) : Shape × Nat :=
  match singleSymbol? c with
  | some symbol => (.sign symbol, 0)
  | none => (.stray, 0)

/-- Shape of a sign and its length after the first character. A slash before a star opens a
comment; since closed comments are trivia, it is one that is never closed. -/
def signTail (c : Char) (cs : List Char) : Shape × Nat :=
  match cs with
  | [] => singleTail c
  | d :: _ =>
    if c = '/' ∧ d = '*' then (.openComment, cs.length)
    else match pairSymbol? c d with
      | some symbol => (.sign symbol, 1)
      | none => singleTail c

/-- Shape of the lexeme that a text starts with, and its length after the first character `c`. -/
def tail (c : Char) (cs : List Char) : Shape × Nat :=
  if c = '"' then stringTail cs
  else if isWordStart c then (.word, runLength isWordChar cs)
  else if c.isDigit then numberTail cs
  else signTail c cs

end Lexeme

/-- Why a lexeme is no token. -/
inductive LexicalFault where
  /-- The string literal is not closed on its line. -/
  | unterminatedString
  /-- No token starts with these characters. -/
  | unexpected (slice : String)
  deriving DecidableEq, Repr

namespace LexicalFault

/-- What the fault says. -/
def message : LexicalFault → String
  | .unterminatedString => "unterminated string literal"
  | .unexpected slice => s!"unexpected character '{slice}'"

end LexicalFault

namespace Lexeme

/-- The token that a lexeme of this shape and text is. -/
def classify (shape : Shape) (text : String) : Except LexicalFault TokenKind :=
  match shape with
  | .word =>
    match Keyword.ofSpelling? text with
    | some word => .ok (.keyword word)
    | none => .ok (.identifier text)
  | .integer => .ok (.integer text)
  | .float => .ok (.float text)
  | .string => .ok (.string text)
  | .sign symbol => .ok (.symbol symbol)
  | .openString => .error .unterminatedString
  | .openComment | .stray => .error (.unexpected text)

end Lexeme

end ClassCheck
