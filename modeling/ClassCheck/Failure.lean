import ClassCheck.Parser.Program
import ClassCheck.Token.Scanner
import ClassCheck.Violation

/-!
# Failures and diagnostics

A source text can fail to be checked to the end for four reasons. Each failure has a text of
one line, a place if there is one, and a diagnostic for a reader.
-/

namespace ClassCheck

/-- Why a source text does not pass. -/
inductive Failure where
  /-- The text does not split into tokens. -/
  | lexical (message : String) (span : Span)
  /-- The tokens are no program. -/
  | grammar (message : String) (span : Span)
  /-- The program breaks a static rule. -/
  | violation (v : Violation)
  /-- The text could not be read. -/
  | unreadable (cause : String)
  deriving DecidableEq, Repr

/-- What a reader is shown of a failure. -/
structure Diagnostic where
  /-- The headline. -/
  message : String
  /-- A remark on a place in the source text. -/
  label : Option (String × Span)
  /-- Remarks on the whole. -/
  notes : List String
  deriving DecidableEq, Repr

namespace Failure

/-- The failure of a lexeme that is no token. -/
def ofLexical (e : LexicalError) : Failure := .lexical e.fault.message e.span

/-- The failure of tokens that are no program. -/
def ofSyntax (e : SyntaxError) : Failure := .grammar e.fault.message e.span

/-- The failure in one line. -/
def text : Failure → String
  | .lexical message span => s!"Lexer error at {span.text}: {message}"
  | .grammar message span => s!"Parser error at {span.text}: {message}"
  | .violation v => v.message
  | .unreadable cause => s!"IO error: {cause}"

/-- Where the failure stands, if it stands anywhere. -/
def span? : Failure → Option Span
  | .lexical _ span | .grammar _ span => some span
  | .violation v => v.span?
  | .unreadable _ => none

/-- What a reader is shown. -/
def diagnostic : Failure → Diagnostic
  | .lexical message span => ⟨"Lexer error", some (message, span), []⟩
  | .grammar message span => ⟨"Syntax error", some (message, span), []⟩
  | .violation v =>
    ⟨"Static semantic error", v.span?.map fun span => (v.kindName, span), [v.message]⟩
  | .unreadable cause => ⟨s!"IO error: {cause}", none, []⟩

end Failure

end ClassCheck
