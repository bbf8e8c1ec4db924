/-!
# Ranges of source text

Every token, tree node and error carries the half-open range of bytes it came from.
Offsets count bytes of the UTF-8 encoding, so a span cuts a text without decoding it again.
A span may run backwards when it is built by hand; its length is then zero.
-/

namespace ClassCheck

/-- The half-open range `start..stop` of byte offsets. -/
structure Span where
  /-- Offset of the first byte. -/
  start : Nat
  /-- Offset just past the last byte. -/
  stop : Nat
  deriving DecidableEq, Repr, Inhabited

namespace Span

/-- The empty span at one offset. -/
def point (offset : Nat) : Span := ⟨offset, offset⟩

/-- The smallest span that covers both. -/
def merge (a b : Span) : Span := ⟨min a.start b.start, max a.stop b.stop⟩

/-- Number of bytes covered. -/
def length (s : Span) : Nat := s.stop - s.start

/-- Whether no byte is covered. -/
def isEmpty (s : Span) : Bool := s.length == 0

/-- Written form, as it stands in error messages. -/
def text (s : Span) : String := s!"{s.start}..{s.stop}"

/-- Merging does not depend on the order of the two spans. -/
theorem merge_comm (a b : Span) : a.merge b = b.merge a := by
  simp [merge, Nat.min_comm, Nat.max_comm]

/-- Merging does not depend on how three spans are grouped. -/
theorem merge_assoc (a b c : Span) : (a.merge b).merge c = a.merge (b.merge c) := by
  simp [merge, Nat.min_assoc, Nat.max_assoc]

end Span

end ClassCheck
