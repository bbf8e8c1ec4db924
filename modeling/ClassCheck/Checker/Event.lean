import ClassCheck.Violation

/-!
# What a check finds

Checking a piece of a program yields a value, such as a type, and a list of events in the
order in which they came up: violations, and notes that are of interest to a reader of the log
only. A check that yields both is `Checked`.
-/

namespace ClassCheck

/-- Something that came up during a check. -/
inductive Event where
  /-- The members of a class are looked at next. -/
  | enterClass (name : String)
  /-- A rule is broken. -/
  | violation (v : Violation)
  /-- This part keeps the initial value of a constant from being constant. -/
  | nonConstant (offender : String)
  /-- A local name is read and no value has been stored under it before. -/
  | unassignedRead (name : String)
  /-- A name could not be declared because its frame has it already. -/
  | duplicate (name : String) (span : Option Span)
  deriving DecidableEq, Repr

namespace Event

/-- The violation that an event is. -/
def violation? : Event → Option Violation
  | .violation v => some v
  | _ => none

/-- Whether an event is a violation that none later can outrank. -/
def isDecisive : Event → Bool
  | .violation v => v.isDecisive
  | _ => false

/-- The violations among events, in order. -/
def violations (events : List Event) : List Violation := events.filterMap violation?

end Event

/-- A value with the events that came up on the way to it. -/
structure Checked (α : Type) where
  /-- The value. -/
  value : α
  /-- The events in order. -/
  events : List Event
  deriving Repr

namespace Checked

instance : Monad Checked where
  pure a := ⟨a, []⟩
  bind c f :=
    let d := f c.value
    ⟨d.value, c.events ++ d.events⟩

@[simp] theorem pure_value {α : Type} (a : α) : (pure a : Checked α).value = a := rfl

@[simp] theorem pure_events {α : Type} (a : α) : (pure a : Checked α).events = [] := rfl

@[simp] theorem bind_value {α β : Type} (c : Checked α) (f : α → Checked β) :
    (c >>= f).value = (f c.value).value := rfl

@[simp] theorem bind_events {α β : Type} (c : Checked α) (f : α → Checked β) :
    (c >>= f).events = c.events ++ (f c.value).events := rfl

/-- Let an event come up. -/
def note (event : Event) : Checked Unit := ⟨(), [event]⟩

/-- Report a violation. -/
def report (v : Violation) : Checked Unit := note (.violation v)

end Checked

end ClassCheck
