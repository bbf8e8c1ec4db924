import ClassCheck.Classes.Table

/-!
# The class hierarchy

Walks along the chain of parents. Classes may extend each other in a circle; a walk stops when
it comes to a class for the second time, which happens at the latest after as many steps as
there are classes. A walk that would need more has no answer. Members are found in the nearest
class of the chain that declares them as the kind that is looked for.
-/

namespace ClassCheck.ClassTable

/-- The parent of a class. -/
def parent? (t : ClassTable) (name : String) : Option String := (t.get? name).bind (·.parent)

/-- The chain of parents from a class on, without the classes seen before; none if it takes more
than `steps` steps from a class to its parent. -/
def chain? (t : ClassTable) (steps : Nat) (seen : List String) (name : String) :
    Option (List ClassEntry) :=
  match t.get? name with
  | none => some []
  | some e =>
    if seen.contains e.name then some []
    else match e.parent, steps with
      | none, _ => some [e]
      | some _, 0 => none
      | some parent, steps + 1 => (t.chain? steps (e.name :: seen) parent).map (e :: ·)

/-- A class and its ancestors, up to the first that comes again. -/
def ancestry (t : ClassTable) (name : String) : List ClassEntry :=
  (t.chain? t.entries.length [] name).getD []

/-- Whether a walk from a class comes to the class `sup`; none if that takes more than `steps`
steps from a class to its parent. -/
def reaches? (t : ClassTable) (sup : String) (steps : Nat) (seen : List String) (name : String) :
    Option Bool :=
  if name = sup then some true
  else if seen.contains name then some false
  else match t.parent? name, steps with
    | none, _ => some false
    | some _, 0 => none
    | some parent, steps + 1 => t.reaches? sup steps (name :: seen) parent

/-- Whether a class is another or one of its descendants. -/
def isSubclass (t : ClassTable) (sub sup : String) : Bool :=
  (t.reaches? sup t.entries.length [] sub).getD false

/-- The attribute that a class has under a name, with the class that declares it. -/
def findAttribute? (t : ClassTable) (className name : String) : Option (String × AttributeInfo) :=
  (t.ancestry className).findSome? fun e => (e.attribute? name).map (e.name, ·)

/-- The method that a class has under a name, with the class that declares it. -/
def findMethod? (t : ClassTable) (className name : String) : Option (String × Signature) :=
  (t.ancestry className).findSome? fun e => (e.method? name).map (e.name, ·)

/-- The constructor of a class, which is not inherited. -/
def ctor? (t : ClassTable) (className : String) : Option Signature :=
  (t.get? className).bind fun e => (e.slotOf className).ctor

end ClassCheck.ClassTable
