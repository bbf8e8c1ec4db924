import ClassCheck.Text.Quoted

/-!
# Outlines

A nested value written over several lines, four columns further in at each level. An outline
is the list of its lines; records, tagged values, lists and optional values are built from the
outlines of their parts.
-/

namespace ClassCheck.Text

/-- The lines of an outline. -/
abbrev Outline := List String

namespace Outline

/-- A value on one line. -/
def atom (text : String) : Outline := [text]

/-- A text in quotes. -/
def text (s : String) : Outline := atom (quoted s)

/-- A whole number. -/
def nat (n : Nat) : Outline := atom (toString n)

/-- A truth value. -/
def bool (b : Bool) : Outline := atom (if b then "true" else "false")

/-- Put a text behind the last line. -/
def close (mark : String) : Outline → Outline
  | [] => []
  | [line] => [line ++ mark]
  | line :: lines => line :: close mark lines

/-- Put a text before the first line. -/
def start (mark : String) : Outline → Outline
  | [] => []
  | line :: lines => (mark ++ line) :: lines

/-- One part of a larger outline: further in, with a comma behind it. -/
def part (o : Outline) : Outline := (o.close ",").map ("    " ++ ·)

/-- A record with its named fields. -/
def record (name : String) (fields : List (String × Outline)) : Outline :=
  (name ++ " \x7b") :: (fields.flatMap fun (label, o) => (o.start (label ++ ": ")).part) ++ ["\x7d"]

/-- A value with a tag. -/
def tagged (tag : String) (o : Outline) : Outline := (tag ++ "(") :: o.part ++ [")"]

/-- Values in order. -/
def list : List Outline → Outline
  | [] => ["[]"]
  | os => "[" :: os.flatMap part ++ ["]"]

/-- A value that may be absent. -/
def option : Option Outline → Outline
  | none => ["None"]
  | some o => tagged "Some" o

end Outline

end ClassCheck.Text
