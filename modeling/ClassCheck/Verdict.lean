import ClassCheck.Checker.Program
import ClassCheck.Failure

/-!
# The verdict on a source text

A source text is split into tokens, parsed and checked; the first stage that fails gives the
verdict. The verdict is one line.
-/

namespace ClassCheck

/-- The verdict on a program that passes every check. -/
def passedText : String := "Static checking passed"

/-- The tokens of a source text. -/
def scanSource (source : String) : Except Failure (List Token) :=
  (tokenize source).mapError .ofLexical

/-- The program of a token list. -/
def parseTokens (tokens : List Token) : Except Failure Program :=
  (Program.ofTokens tokens).mapError .ofSyntax

/-- The program of a source text. -/
def parseSource (source : String) : Except Failure Program := do
  let tokens ← scanSource source
  parseTokens tokens

/-- Check a source text. -/
def checkSource (source : String) : Except Failure Unit := do
  let program ← parseSource source
  program.check.mapError .violation

/-- The answer of a check in one line. -/
def verdict : Except Failure Unit → String
  | .ok () => passedText
  | .error failure => failure.text

end ClassCheck
