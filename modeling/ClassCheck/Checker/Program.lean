import ClassCheck.Checker.Stmt
import ClassCheck.Syntax.Program

/-!
# Checking programs

First the class table is built, and a violation there is the answer. Then all members are
checked, class by class, and of the violations that came up the gravest is the answer, of
several the first. A program without violations still needs a method to start with.
-/

namespace ClassCheck

namespace Member

/-- The violation of a rule by a member. -/
def breaks (m : Member) (rule : Rule) : Violation := .broken rule m.render m.span

end Member

namespace Context

/-- The context between the members of a class. -/
def ofClass (walk : Walk) (table : ClassTable) (className : String) : Context :=
  ⟨walk, table, className, false, false, none⟩

/-- Come to a member: what it says about its object, about constructing it and about its result
replaces what the member before it said. -/
def enter (ctx : Context) (isStatic inCtor : Bool) (result : Option Ty) : Context :=
  { ctx with isStatic := isStatic, inCtor := inCtor, result := result }

/-- The context in which the parameters and the body of a member are checked, or the initial values
of attributes. -/
def inMember (ctx : Context) : Member → Context
  | .attribute decl _ => ctx.enter decl.isStatic false none
  | .method decl _ => ctx.enter decl.isStatic false (decl.result.map .ofWritten)
  | .ctor _ _ => ctx.enter false true none
  | .dtor _ _ => ctx.enter false false none

@[simp] theorem inMember_walk (ctx : Context) (m : Member) : (ctx.inMember m).walk = ctx.walk := by
  cases m <;> rfl

@[simp] theorem inMember_table (ctx : Context) (m : Member) :
    (ctx.inMember m).table = ctx.table := by
  cases m <;> rfl

@[simp] theorem inMember_className (ctx : Context) (m : Member) :
    (ctx.inMember m).className = ctx.className := by
  cases m <;> rfl

/-- Check the initial values of attributes declared together. -/
def attributeInits (ctx : Context) (decl : AttributeDecl) : List Declarator → Progress → Progress
  | [], p => p
  | d :: ds, p =>
    let p := match d.init with
      | some init =>
        p.absorb (ctx.initializer p.scope decl.isFinal (.ofWritten decl.type) init
          fun rule => .broken rule decl.render d.span)
      | none => p
    ctx.attributeInits decl ds p

/-- Declare formal parameters in order. -/
def declareParams (ctx : Context) : List Param → Progress → Progress
  | [], p => p
  | param :: params, p =>
    let p := p.absorb (ctx.demandType param.type)
    let p := match p.scope.define? ⟨param.name, .parameter, .ofWritten param.type, true⟩ with
      | some scope => { p with scope := scope }
      | none => p.report (.broken (.redeclared .parameter) param.name param.span)
    ctx.declareParams params p

/-- Check a body; the parameters and the statements share a frame. -/
def body (ctx : Context) (params : List Param) (b : Block) (p : Progress) : Progress :=
  let p := ctx.declareParams params (p.inScope .push)
  (ctx.statements b.stmts p).inScope .pop

/-- Check a member. The result of a method, and the name of a constructor or destructor, are
checked before the member is entered. -/
def member (ctx : Context) (m : Member) (p : Progress) : Progress :=
  let p := { p with assigned := [] }
  let inner := ctx.inMember m
  match m with
  | .attribute decl _ =>
    inner.attributeInits decl decl.declarators (p.absorb (inner.demandType decl.type))
  | .method decl _ =>
    let p := match decl.result with
      | some type => p.absorb (ctx.demandType type)
      | none => p
    inner.body decl.params decl.body p
  | .ctor decl _ =>
    inner.body decl.params decl.body
      (p.demand (decl.name = ctx.className) (m.breaks .mismatchInStatement))
  | .dtor decl _ =>
    inner.body [] decl.body
      (p.demand (decl.name = ctx.className) (m.breaks .mismatchInStatement))

/-- Check members in order. -/
def members (ctx : Context) : List Member → Progress → Progress
  | [], p => p
  | m :: ms, p => if ctx.halts p then p else ctx.members ms (ctx.member m p)

end Context

namespace ClassTable

/-- Check a class. -/
def checkClass (t : ClassTable) (walk : Walk) (c : ClassDecl) (p : Progress) : Progress :=
  (Context.ofClass walk t c.name.name).members c.members (p.note (.enterClass c.name.name))

/-- Check classes in order. -/
def checkClasses (t : ClassTable) (walk : Walk) : List ClassDecl → Progress → Progress
  | [], p => p
  | c :: cs, p =>
    if walk = .untilSettled && p.settled then p
    else t.checkClasses walk cs (t.checkClass walk c p)

/-- The events of checking all members of a program. -/
def traverse (t : ClassTable) (walk : Walk) (p : Program) : List Event :=
  (t.checkClasses walk p.classes .start).events

/-- The answer for events: the gravest violation, or else whether the program can start. -/
def judge (t : ClassTable) (events : List Event) : Except Violation Unit := do
  (Tracker.empty.recordAll (Event.violations events)).result
  if t.hasEntryPoint then pure () else throw .noEntryPoint

end ClassTable

/-- A program's class table and the events of checking its members. -/
structure Analysis where
  /-- The class table. -/
  table : ClassTable
  /-- The events in order. -/
  events : List Event
  deriving DecidableEq, Repr

namespace Program

/-- Build the class table and check all members, as far as needed. -/
def analyze (p : Program) : Except Violation Analysis := do
  let table ← ClassTable.build p
  pure ⟨table, table.traverse .untilSettled p⟩

/-- Success, or the violation to report. -/
def check (p : Program) : Except Violation Unit := do
  let analysis ← p.analyze
  analysis.table.judge analysis.events

end Program

end ClassCheck
