import ClassCheck.Number.Shortest
import ClassCheck.Parser.Basic

/-!
# Values of literals

The value of a literal token. A string literal stands between quotes, and a backslash in it
gives the next character a meaning of its own: one of seven is resolved, any other is a fault.
-/

namespace ClassCheck.Parser

/-- The character that an escape stands for, by the character after the backslash. -/
def escaped? : Char → Option Char
  | 'n' => some '\n'
  | 't' => some '\t'
  | 'r' => some '\r'
  | 'b' => some '\x08'
  | 'f' => some '\x0c'
  | '\\' => some '\\'
  | '"' => some '"'
  | _ => none

/-- Resolve the escapes of a string body, or find the first that cannot be resolved. -/
def unescape : List Char → Except SyntaxFault (List Char)
  | [] => .ok []
  | ['\\'] => .error .danglingEscape
  | '\\' :: c :: cs =>
    match escaped? c with
    | some d => (unescape cs).map (d :: ·)
    | none => .error (.unknownEscape c)
  | c :: cs => (unescape cs).map (c :: ·)

/-- The text between the quotes that it starts and ends with. -/
def unquote? : List Char → Option (List Char)
  | '"' :: cs => if cs.getLast? = some '"' then some cs.dropLast else none
  | _ => none

/-- The value of a string literal as it is written. -/
def stringValue (text : String) : Except SyntaxFault String :=
  match unquote? text.toList with
  | some body => (unescape body).map String.ofList
  | none => .error .malformedString

/-- The value of an integer literal as it is written. -/
def integerValue (text : String) : Except SyntaxFault Int :=
  match Number.readInteger? text with
  | some value => .ok value
  | none => .error (.integerRange text)

/-- The value of a floating-point literal as it is written. -/
def floatValue (text : String) : Except SyntaxFault Number.Binary64 :=
  match Number.Binary64.read? text with
  | some value => .ok value
  | none => .error (.invalidFloat text)

/-- The size of an array as it is written. -/
def sizeValue (text : String) : Except SyntaxFault Nat :=
  match Number.readSize? text with
  | some size => .ok size
  | none => .error .arraySizeRange

/-- Take a value, or fail at a given place. -/
def lift {α : Type} (value : Except SyntaxFault α) (span : Span) : Parser α :=
  match value with
  | .ok a => pure a
  | .error fault => fail fault span

end ClassCheck.Parser
