/-!
# Bytes, lines and columns of a text

Offsets are counted in bytes of the UTF-8 encoding; a reader is shown a line and a column,
both from one, where a line ends at a line feed and a column counts characters.
-/

namespace ClassCheck.Text

/-- Number of bytes that the characters take in UTF-8. -/
def byteLength : List Char → Nat
  | [] => 0
  | c :: cs => c.utf8Size + byteLength cs

@[simp] theorem byteLength_nil : byteLength [] = 0 := rfl

@[simp] theorem byteLength_cons (c : Char) (cs : List Char) :
    byteLength (c :: cs) = c.utf8Size + byteLength cs := rfl

/-- The bytes of two texts add up. -/
@[simp] theorem byteLength_append (as bs : List Char) :
    byteLength (as ++ bs) = byteLength as + byteLength bs := by
  induction as with
  | nil => simp
  | cons c cs ih => simp [ih, Nat.add_assoc]

/-- A place in a text as a reader counts it. -/
structure Position where
  /-- Line, from one. -/
  line : Nat
  /-- Column in characters, from one. -/
  column : Nat
  deriving DecidableEq, Repr

namespace Position

/-- The place of the first character. -/
def first : Position := ⟨1, 1⟩

/-- The place after one character. -/
def after (p : Position) (c : Char) : Position :=
  if c = '\n' then ⟨p.line + 1, 1⟩ else ⟨p.line, p.column + 1⟩

/-- The place reached from `p` after `offset` bytes of the text; past the end it is the end. -/
def advance (p : Position) : Nat → List Char → Position
  | _, [] => p
  | offset, c :: cs =>
    if c.utf8Size ≤ offset then (p.after c).advance (offset - c.utf8Size) cs else p

/-- The place of the byte at `offset`. -/
def ofOffset (text : String) (offset : Nat) : Position := first.advance offset text.toList

/-- Written form `line:column`. -/
def text (p : Position) : String := s!"{p.line}:{p.column}"

end Position

end ClassCheck.Text
