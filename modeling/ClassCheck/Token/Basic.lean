import ClassCheck.Span
import ClassCheck.Text.Quoted

/-!
# Tokens

A token is a kind and the span it was read from. The fixed words and signs of the language are
two enumerations with their spellings; names and literals carry the text they were written
with, a string with its quotes and its escapes unresolved.
-/

namespace ClassCheck

/-- The reserved words. -/
inductive Keyword where
  | kwClass | kwExtends | kwStatic | kwFinal | kwVoid | kwInt | kwFloat | kwBoolean | kwString
  | kwNew | kwThis | kwNil | kwTrue | kwFalse | kwIf | kwThen | kwElse | kwFor | kwTo | kwDownto
  | kwDo | kwBreak | kwContinue | kwReturn
  deriving DecidableEq, Repr

/-- The operator signs and the punctuation. -/
inductive Symbol where
  | assign | plus | minus | star | slash | backslash | percent | eqEq | notEq | less | greater
  | lessEq | greaterEq | andAnd | orOr | bang | caret | amp | tilde | lparen | rparen | lbracket
  | rbracket | lbrace | rbrace | semi | comma | dot
  deriving DecidableEq, Repr

namespace Keyword

/-- Every reserved word. -/
def all : List Keyword := [
  .kwClass, .kwExtends, .kwStatic, .kwFinal, .kwVoid, .kwInt, .kwFloat, .kwBoolean, .kwString,
  .kwNew, .kwThis, .kwNil, .kwTrue, .kwFalse, .kwIf, .kwThen, .kwElse, .kwFor, .kwTo, .kwDownto,
  .kwDo, .kwBreak, .kwContinue, .kwReturn]

/-- How the word is written. -/
def spelling : Keyword → String
  | .kwClass => "class"
  | .kwExtends => "extends"
  | .kwStatic => "static"
  | .kwFinal => "final"
  | .kwVoid => "void"
  | .kwInt => "int"
  | .kwFloat => "float"
  | .kwBoolean => "boolean"
  | .kwString => "string"
  | .kwNew => "new"
  | .kwThis => "this"
  | .kwNil => "nil"
  | .kwTrue => "true"
  | .kwFalse => "false"
  | .kwIf => "if"
  | .kwThen => "then"
  | .kwElse => "else"
  | .kwFor => "for"
  | .kwTo => "to"
  | .kwDownto => "downto"
  | .kwDo => "do"
  | .kwBreak => "break"
  | .kwContinue => "continue"
  | .kwReturn => "return"

/-- The word's name in a listing of tokens. -/
def label : Keyword → String
  | .kwClass => "Class"
  | .kwExtends => "Extends"
  | .kwStatic => "Static"
  | .kwFinal => "Final"
  | .kwVoid => "Void"
  | .kwInt => "Int"
  | .kwFloat => "Float"
  | .kwBoolean => "Boolean"
  | .kwString => "Str"
  | .kwNew => "New"
  | .kwThis => "This"
  | .kwNil => "Nil"
  | .kwTrue => "True"
  | .kwFalse => "False"
  | .kwIf => "If"
  | .kwThen => "Then"
  | .kwElse => "Else"
  | .kwFor => "For"
  | .kwTo => "To"
  | .kwDownto => "Downto"
  | .kwDo => "Do"
  | .kwBreak => "Break"
  | .kwContinue => "Continue"
  | .kwReturn => "Return"

/-- The reserved word with this spelling, if there is one. -/
def ofSpelling? (word : String) : Option Keyword := all.find? (·.spelling = word)

/-- Whether the word names a primitive type. -/
def namesPrimitive : Keyword → Bool
  | .kwInt | .kwFloat | .kwBoolean | .kwString => true
  | _ => false

end Keyword

namespace Symbol

/-- Every sign. -/
def all : List Symbol := [
  .assign, .plus, .minus, .star, .slash, .backslash, .percent, .eqEq, .notEq, .less, .greater,
  .lessEq, .greaterEq, .andAnd, .orOr, .bang, .caret, .amp, .tilde, .lparen, .rparen, .lbracket,
  .rbracket, .lbrace, .rbrace, .semi, .comma, .dot]

/-- How the sign is written. -/
def spelling : Symbol → String
  | .assign => ":="
  | .plus => "+"
  | .minus => "-"
  | .star => "*"
  | .slash => "/"
  | .backslash => "\\"
  | .percent => "%"
  | .eqEq => "=="
  | .notEq => "!="
  | .less => "<"
  | .greater => ">"
  | .lessEq => "<="
  | .greaterEq => ">="
  | .andAnd => "&&"
  | .orOr => "||"
  | .bang => "!"
  | .caret => "^"
  | .amp => "&"
  | .tilde => "~"
  | .lparen => "("
  | .rparen => ")"
  | .lbracket => "["
  | .rbracket => "]"
  | .lbrace => "\x7b"
  | .rbrace => "\x7d"
  | .semi => ";"
  | .comma => ","
  | .dot => "."

/-- The sign's name in a listing of tokens. -/
def label : Symbol → String
  | .assign => "ColonEq"
  | .plus => "Plus"
  | .minus => "Minus"
  | .star => "Star"
  | .slash => "Slash"
  | .backslash => "Backslash"
  | .percent => "Percent"
  | .eqEq => "EqEq"
  | .notEq => "NotEq"
  | .less => "Lt"
  | .greater => "Gt"
  | .lessEq => "LtEq"
  | .greaterEq => "GtEq"
  | .andAnd => "AmpAmp"
  | .orOr => "PipePipe"
  | .bang => "Bang"
  | .caret => "Caret"
  | .amp => "Amp"
  | .tilde => "Tilde"
  | .lparen => "LParen"
  | .rparen => "RParen"
  | .lbracket => "LBracket"
  | .rbracket => "RBracket"
  | .lbrace => "LBrace"
  | .rbrace => "RBrace"
  | .semi => "Semi"
  | .comma => "Comma"
  | .dot => "Dot"

end Symbol

/-- What a token is. -/
inductive TokenKind where
  /-- A reserved word. -/
  | keyword (word : Keyword)
  /-- An operator sign or punctuation. -/
  | symbol (sign : Symbol)
  /-- A name. -/
  | identifier (name : String)
  /-- An integer literal as written. -/
  | integer (text : String)
  /-- A floating-point literal as written. -/
  | float (text : String)
  /-- A string literal as written, with its quotes. -/
  | string (text : String)
  /-- The end of the text. -/
  | eof
  deriving DecidableEq, Repr

namespace TokenKind

/-- How a message names the token. -/
def describe : TokenKind → String
  | .keyword word => s!"'{word.spelling}'"
  | .symbol sign => s!"'{sign.spelling}'"
  | .identifier name => s!"identifier '{name}'"
  | .integer text => s!"integer '{text}'"
  | .float text => s!"float '{text}'"
  | .string text => s!"string {text}"
  | .eof => "end of file"

/-- The kind's name in a listing of tokens, without the text it carries. -/
def label : TokenKind → String
  | .keyword word => word.label
  | .symbol sign => sign.label
  | .identifier _ => "Identifier"
  | .integer _ => "IntLiteral"
  | .float _ => "FloatLiteral"
  | .string _ => "StringLiteral"
  | .eof => "Eof"

/-- The text that the kind carries, for names and literals. -/
def text? : TokenKind → Option String
  | .identifier text | .integer text | .float text | .string text => some text
  | _ => none

/-- Whether two kinds are equal, the texts of names and literals aside. -/
def sameSort : TokenKind → TokenKind → Bool
  | .identifier _, .identifier _ => true
  | .integer _, .integer _ => true
  | .float _, .float _ => true
  | .string _, .string _ => true
  | a, b => a = b

/-- Whether the token names a primitive type. -/
def namesPrimitive : TokenKind → Bool
  | .keyword word => word.namesPrimitive
  | _ => false

/-- Whether a member declaration can start with the token. -/
def startsMember : TokenKind → Bool
  | .keyword .kwStatic | .keyword .kwFinal | .keyword .kwVoid => true
  | .symbol .tilde => true
  | .identifier _ => true
  | kind => kind.namesPrimitive

end TokenKind

/-- A token and where it stands. -/
structure Token where
  /-- What the token is. -/
  kind : TokenKind
  /-- The bytes it was read from. -/
  span : Span
  deriving DecidableEq, Repr

namespace Token

/-- One line of a token listing. -/
def listing (t : Token) : String :=
  let kind := match t.kind.text? with
    | some text => t.kind.label ++ "(" ++ Text.quoted text ++ ")"
    | none => t.kind.label
  let span := s!"Span \x7b start: {t.span.start}, end: {t.span.stop} \x7d"
  s!"Token \x7b kind: {kind}, span: {span} \x7d"

end Token

end ClassCheck
