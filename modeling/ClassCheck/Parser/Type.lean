import ClassCheck.Parser.Literal

/-!
# Parsing written types

A base type, any number of array sizes in brackets, and at most one reference mark.
-/

namespace ClassCheck.Parser

/-- The base type that a token names. -/
def baseType? (t : Token) : Option WrittenType :=
  match t.kind with
  | .keyword .kwInt => some (.primitive .int t.span)
  | .keyword .kwFloat => some (.primitive .float t.span)
  | .keyword .kwBoolean => some (.primitive .boolean t.span)
  | .keyword .kwString => some (.primitive .string t.span)
  | .identifier name => some (.named name t.span)
  | _ => none

/-- A primitive type or a class name. -/
def baseType : Parser WrittenType := do
  let t ← peek
  match baseType? t with
  | some type =>
    let _ ← advance
    pure type
  | none => failExpected .type

/-- The number between the brackets of an array type. -/
def arraySize : Parser Nat := do
  let t ← advance
  match t.kind with
  | .integer text => lift (sizeValue text) t.span
  | found => fail (.expected .arraySize found) t.span

/-- The array sizes after a type; `bound` limits how often to look for one. -/
def arraySizes : Nat → WrittenType → Parser WrittenType
  | 0, _ => exhausted
  | bound + 1, type => do
    if ← acceptSymbol .lbracket then
      let size ← arraySize
      let close ← symbol .rbracket
      arraySizes bound (.array type size (type.span.merge close))
    else pure type

/-- A written type. -/
def writtenType (bound : Nat) : Parser WrittenType := do
  let base ← baseType
  let type ← arraySizes bound base
  if ← acceptSymbol .amp then
    let mark ← lastSpan
    pure (.reference type (type.span.merge mark))
  else pure type

end ClassCheck.Parser
