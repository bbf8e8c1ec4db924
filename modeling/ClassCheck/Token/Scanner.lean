import ClassCheck.Text.Position
import ClassCheck.Token.Lexeme

/-!
# The scanner

A scanner is the part of the text still to be read and the byte offset it starts at. Each step
skips the trivia, reads one lexeme and answers with a token or an error; the end of the text
is answered again and again. A stream adds one token of lookahead to a scanner, and a flag that the
end of the text was reached.
-/

namespace ClassCheck

/-- A lexeme that is no token, and where it stands. -/
structure LexicalError where
  /-- Why it is no token. -/
  fault : LexicalFault
  /-- The bytes it was read from. -/
  span : Span
  deriving DecidableEq, Repr

/-- What is left to read of a text. -/
structure Scanner where
  /-- Byte offset of the first character that is left. -/
  offset : Nat
  /-- The characters that are left. -/
  rest : List Char
  deriving DecidableEq, Repr

namespace Scanner

/-- A scanner at the start of a text. -/
def ofText (source : String) : Scanner := ⟨0, source.toList⟩

/-- The scanner after `n` more characters. -/
def drop (s : Scanner) (n : Nat) : Scanner :=
  ⟨s.offset + Text.byteLength (s.rest.take n), s.rest.drop n⟩

/-- The scanner at the next lexeme or at the end of the text. -/
def skipTrivia (s : Scanner) : Scanner := s.drop (Lexeme.triviaLength s.rest)

/-- Read the lexeme at the front, which is not trivia. -/
def lexeme (s : Scanner) : Except LexicalError Token × Scanner :=
  match s.rest with
  | [] => (.ok ⟨.eof, .point s.offset⟩, s)
  | c :: cs =>
    let (shape, extra) := Lexeme.tail c cs
    let after := s.drop (extra + 1)
    let span : Span := ⟨s.offset, after.offset⟩
    match Lexeme.classify shape (String.ofList (s.rest.take (extra + 1))) with
    | .ok kind => (.ok ⟨kind, span⟩, after)
    | .error fault => (.error ⟨fault, span⟩, after)

/-- Read one token or error. -/
def next (s : Scanner) : Except LexicalError Token × Scanner := s.skipTrivia.lexeme

@[simp] theorem drop_rest (s : Scanner) (n : Nat) : (s.drop n).rest = s.rest.drop n := rfl

/-- Skipping trivia leaves no more to read than before. -/
theorem length_skipTrivia_le (s : Scanner) : s.skipTrivia.rest.length ≤ s.rest.length := by
  simp [skipTrivia]

/-- A lexeme takes at least one character, unless nothing is left. -/
theorem length_lexeme_lt {s : Scanner} (h : s.rest ≠ []) :
    s.lexeme.2.rest.length < s.rest.length := by
  unfold lexeme
  split
  · contradiction
  · next hs =>
    simp only
    split <;> simp only [drop_rest, List.length_drop, hs, List.length_cons] <;> omega

/-- A step that does not reach the end takes at least one character. -/
theorem length_next_lt {s : Scanner} (h : s.skipTrivia.rest ≠ []) :
    s.next.2.rest.length < s.rest.length :=
  Nat.lt_of_lt_of_le (length_lexeme_lt h) s.length_skipTrivia_le

/-- All tokens up to and with the end of the text, or the first error. -/
def tokens (s : Scanner) : Except LexicalError (List Token) :=
  let body := s.skipTrivia
  if _h : body.rest = [] then .ok [⟨.eof, .point body.offset⟩]
  else
    let step := body.lexeme
    match step.1 with
    | .error e => .error e
    | .ok t => step.2.tokens.map (t :: ·)
termination_by s.rest.length
decreasing_by exact length_next_lt _h

end Scanner

/-- All tokens of a text, ending with the end of the text, or the first error. -/
def tokenize (source : String) : Except LexicalError (List Token) :=
  (Scanner.ofText source).tokens

/-- A scanner with one token of lookahead. -/
structure TokenStream where
  /-- The token that was looked at and not yet taken. -/
  peeked : Option Token
  /-- What is left to read after it. -/
  scanner : Scanner
  /-- The scanner has answered with the end of the text. -/
  atEof : Bool
  deriving DecidableEq, Repr

namespace TokenStream

/-- A stream at the start of a text. -/
def ofText (source : String) : TokenStream := ⟨none, .ofText source, false⟩

/-- Whether an answer is the end of the text. -/
def isEof : Except LexicalError Token → Bool
  | .ok t => t.kind = .eof
  | .error _ => false

/-- Take the next token. An error takes its slice with it. At the end of the text the scanner is not
asked again. -/
def next (s : TokenStream) : Except LexicalError Token × TokenStream :=
  match s.peeked with
  | some t => (.ok t, { s with peeked := none })
  | none =>
    if s.atEof then
      (.ok ⟨.eof, .point (s.scanner.offset + Text.byteLength s.scanner.rest)⟩, s)
    else
      let (answer, scanner) := s.scanner.next
      (answer, ⟨none, scanner, isEof answer⟩)

/-- Look at the next token without taking it. An error takes its slice and leaves nothing
looked at. -/
def peek (s : TokenStream) : Except LexicalError Token × TokenStream :=
  match s.next with
  | (.ok t, s) => (.ok t, { s with peeked := some t })
  | (.error e, s) => (.error e, s)

/-- Whether the next token is of this sort. -/
def check (kind : TokenKind) (s : TokenStream) : Except LexicalError Bool × TokenStream :=
  match s.peek with
  | (.ok t, s) => (.ok (t.kind.sameSort kind), s)
  | (.error e, s) => (.error e, s)

/-- Take the next token if it is of this sort, and say whether it was. -/
def accept (kind : TokenKind) (s : TokenStream) : Except LexicalError Bool × TokenStream :=
  match s.check kind with
  | (.ok true, s) => (.ok true, s.next.2)
  | (answer, s) => (answer, s)

end TokenStream

end ClassCheck
