import ClassCheck.Text.Hidden

/-!
# Quoted texts

A text is shown between double quotes on one line. The quote and the backslash are escaped,
four control characters have a short form, and every other hidden character is written as its
code point in braces. A line feed never survives, so a quoted text never breaks a message.
-/

namespace ClassCheck.Text

/-- The escape `\\u{…}` of a code point, in lower-case hexadecimal without padding. -/
def codePointEscape (c : Char) : List Char :=
  ['\\', 'u', '\x7b'] ++ Nat.toDigits 16 c.toNat ++ ['\x7d']

/-- One character inside a quoted text. -/
def quotedChar (c : Char) : List Char :=
  if c = '"' then ['\\', '"']
  else if c = '\\' then ['\\', '\\']
  else if c = '\n' then ['\\', 'n']
  else if c = '\r' then ['\\', 'r']
  else if c = '\t' then ['\\', 't']
  else if c = '\x00' then ['\\', '0']
  else if isHidden c then codePointEscape c
  else [c]

/-- A text between double quotes, with what a reader could not see escaped. -/
def quoted (s : String) : String :=
  String.ofList ('"' :: (s.toList.flatMap quotedChar ++ ['"']))

end ClassCheck.Text
