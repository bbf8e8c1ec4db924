import ClassCheck.Types.Basic
import ClassCheck.Violation

/-!
# What a class declares

A class has one name space. Under one name stands an attribute or a method, or else a
constructor and a destructor, which may share their name with each other only. Adding a
declaration either fills the slot of its name or fails, and then names what was declared twice.
-/

namespace ClassCheck

/-- What is known of an attribute. -/
structure AttributeInfo where
  /-- Its type. -/
  type : Ty
  /-- Whether it is a constant. -/
  isFinal : Bool
  /-- Whether it belongs to the class itself. -/
  isStatic : Bool
  /-- Whether it has an initial value. -/
  hasInit : Bool
  deriving DecidableEq, Repr

/-- What is known of a method or constructor. -/
structure Signature where
  /-- The type of the result; none if there is no result. -/
  result : Option Ty
  /-- The names and types of the parameters. -/
  params : List (String × Ty)
  /-- Whether it belongs to the class itself. -/
  isStatic : Bool
  deriving DecidableEq, Repr

/-- A member that a name alone can stand for. -/
inductive ValueMember where
  | attribute (info : AttributeInfo)
  | method (signature : Signature)
  deriving DecidableEq, Repr

/-- Everything a class declares under one name. -/
structure NameSlot where
  /-- The attribute or method. -/
  value : Option ValueMember
  /-- The constructor. -/
  ctor : Option Signature
  /-- Whether there is a destructor. -/
  dtor : Bool
  deriving DecidableEq, Repr

namespace NameSlot

/-- Nothing declared. -/
def empty : NameSlot := ⟨none, none, false⟩

/-- Whether anything is declared. -/
def isOccupied (s : NameSlot) : Bool := s.value.isSome || s.ctor.isSome || s.dtor

end NameSlot

/-- A class with what it declares. -/
structure ClassEntry where
  /-- The name of the class. -/
  name : String
  /-- The class it extends. -/
  parent : Option String
  /-- The slots by name. -/
  slots : List (String × NameSlot)
  deriving DecidableEq, Repr

namespace ClassEntry

/-- A class that declares nothing. -/
def bare (name : String) (parent : Option String) : ClassEntry := ⟨name, parent, []⟩

/-- What is declared under a name. -/
def slot? (e : ClassEntry) (name : String) : Option NameSlot := e.slots.lookup name

/-- What is declared under a name, possibly nothing. -/
def slotOf (e : ClassEntry) (name : String) : NameSlot := (e.slot? name).getD .empty

/-- Put a slot in place of the one that a name had. -/
def setSlot (e : ClassEntry) (name : String) (slot : NameSlot) : ClassEntry :=
  { e with slots := (name, slot) :: e.slots.filter (·.1 ≠ name) }

/-- What an attribute is called when it is declared twice. -/
def attributeLabel (isFinal : Bool) : Declared := if isFinal then .constant else .attribute

/-- Declare an attribute. Two attributes of one name are called after the first, an attribute
that meets anything else after itself. -/
def addAttribute (e : ClassEntry) (name : String) (info : AttributeInfo) :
    Except Declared ClassEntry :=
  let slot := e.slotOf name
  match slot.value with
  | some (.attribute first) => .error (attributeLabel first.isFinal)
  | _ =>
    if slot.isOccupied then .error (attributeLabel info.isFinal)
    else .ok (e.setSlot name { slot with value := some (.attribute info) })

/-- Declare a method. -/
def addMethod (e : ClassEntry) (name : String) (signature : Signature) :
    Except Declared ClassEntry :=
  let slot := e.slotOf name
  if slot.isOccupied then .error .method
  else .ok (e.setSlot name { slot with value := some (.method signature) })

/-- Declare a constructor. -/
def addCtor (e : ClassEntry) (name : String) (signature : Signature) :
    Except Declared ClassEntry :=
  let slot := e.slotOf name
  if slot.value.isSome || slot.ctor.isSome then .error .ctor
  else .ok (e.setSlot name { slot with ctor := some signature })

/-- Declare a destructor. -/
def addDtor (e : ClassEntry) (name : String) : Except Declared ClassEntry :=
  let slot := e.slotOf name
  if slot.value.isSome || slot.dtor then .error .dtor
  else .ok (e.setSlot name { slot with dtor := true })

/-- The attribute that the class itself declares under a name. -/
def attribute? (e : ClassEntry) (name : String) : Option AttributeInfo :=
  match (e.slotOf name).value with
  | some (.attribute info) => some info
  | _ => none

/-- The method that the class itself declares under a name. -/
def method? (e : ClassEntry) (name : String) : Option Signature :=
  match (e.slotOf name).value with
  | some (.method signature) => some signature
  | _ => none

end ClassEntry

end ClassCheck
