import ClassCheck.Classes.Table

/-!
# Scopes

Local names live in a stack of frames, the innermost first, which is never empty. A name is
looked up from the innermost frame outwards and declared in the innermost. Each frame also
counts the loops around it; a new frame starts with the count of the frame it is put on.
-/

namespace ClassCheck

/-- What a local name is bound to. -/
inductive BindingKind where
  /-- A variable. -/
  | variable
  /-- A constant. -/
  | constant
  /-- A formal parameter. -/
  | parameter
  /-- The built-in class of input and output. -/
  | facility
  deriving DecidableEq, Repr

/-- A local name. -/
structure Binding where
  /-- The name. -/
  name : String
  /-- What it is bound to. -/
  kind : BindingKind
  /-- Its type. -/
  type : Ty
  /-- Whether a value has been stored. Reading a name without one is only worth a note. -/
  initialized : Bool
  deriving DecidableEq, Repr

/-- Whether an assignment may go to the name. Parameters can be written only if they are
references. -/
def Binding.isAssignable (b : Binding) : Bool :=
  match b.kind with
  | .variable => true
  | .parameter => b.type.isReference
  | .constant | .facility => false

/-- The names declared together between two braces. -/
structure Frame where
  /-- The names in order of declaration. -/
  bindings : List Binding
  /-- The number of loops around the frame. -/
  loopDepth : Nat
  deriving DecidableEq, Repr

namespace Frame

/-- The binding of a name. -/
def lookup? (f : Frame) (name : String) : Option Binding := f.bindings.find? (·.name = name)

/-- Note that a value has been stored under a name. -/
def mark (f : Frame) (name : String) : Frame :=
  { f with bindings := f.bindings.map fun b =>
      if b.name = name then { b with initialized := true } else b }

end Frame

/-- A stack of frames. -/
structure Scope where
  /-- The innermost frame. -/
  inner : Frame
  /-- The frames around it, from the inside out. -/
  outer : List Frame
  deriving DecidableEq, Repr

namespace Scope

/-- One frame without names. -/
def empty : Scope := ⟨⟨[], 0⟩, []⟩

/-- The scope around every class, where input and output can be reached. -/
def global : Scope := ⟨⟨[⟨ioName, .facility, .object ioClass, true⟩], 0⟩, []⟩

/-- The frames from the inside out. -/
def frames (s : Scope) : List Frame := s.inner :: s.outer

/-- The binding of a name in the innermost frame that has one. -/
def lookup? (s : Scope) (name : String) : Option Binding := s.frames.findSome? (·.lookup? name)

/-- The binding of a name in the innermost frame. -/
def lookupLocal? (s : Scope) (name : String) : Option Binding := s.inner.lookup? name

/-- Declare a name in the innermost frame, unless it has that name already. -/
def define? (s : Scope) (b : Binding) : Option Scope :=
  if (s.lookupLocal? b.name).isSome then none
  else some { s with inner := { s.inner with bindings := s.inner.bindings ++ [b] } }

/-- Note in the first frame that has a name that a value has been stored under it. -/
def markIn (name : String) : List Frame → List Frame
  | [] => []
  | f :: fs => if (f.lookup? name).isSome then f.mark name :: fs else f :: markIn name fs

/-- Note that a value has been stored under a name. -/
def markInitialized (s : Scope) (name : String) : Scope :=
  if (s.inner.lookup? name).isSome then { s with inner := s.inner.mark name }
  else { s with outer := markIn name s.outer }

/-- Put a new frame inside. -/
def push (s : Scope) : Scope := ⟨⟨[], s.inner.loopDepth⟩, s.frames⟩

/-- Take the innermost frame away; the last one stays. -/
def pop (s : Scope) : Scope :=
  match s.outer with
  | [] => s
  | f :: fs => ⟨f, fs⟩

/-- Whether the innermost frame can be taken away. -/
def canPop (s : Scope) : Bool := !s.outer.isEmpty

/-- Count one more loop around the innermost frame. -/
def enterLoop (s : Scope) : Scope :=
  { s with inner := { s.inner with loopDepth := s.inner.loopDepth + 1 } }

/-- Count one loop less around the innermost frame. -/
def exitLoop (s : Scope) : Scope :=
  { s with inner := { s.inner with loopDepth := s.inner.loopDepth - 1 } }

/-- Whether the innermost frame is inside a loop. -/
def inLoop (s : Scope) : Bool := 0 < s.inner.loopDepth

/-- The number of frames. -/
def depth (s : Scope) : Nat := s.frames.length

/-- What is said of a name declared twice in a frame. -/
def duplicateMessage (name : String) : String := s!"symbol '{name}' already defined in this scope"

end Scope

end ClassCheck
