import ClassCheck.Checker.Expr
import ClassCheck.Syntax.Stmt

/-!
# Checking statements

Statements are checked in order and change the progress of the check: the local names, the
final attributes that the constructor has given a value, and the events so far. A traversal
that stops early leaves out every statement after a violation that none can outrank. Branches,
loop bodies and blocks have a frame of their own, which is gone after them.
-/

namespace ClassCheck

/-- How far the check of a member has come. -/
structure Progress where
  /-- The local names. -/
  scope : Scope
  /-- The final attributes that the constructor has given a value. -/
  assigned : List String
  /-- The events so far. -/
  events : List Event
  deriving DecidableEq, Repr

namespace Progress

/-- Nothing checked yet. -/
def start : Progress := ⟨.global, [], []⟩

/-- Whether no later violation can be graver than one found so far. -/
def settled (p : Progress) : Bool := p.events.any Event.isDecisive

/-- Add the events of a check. -/
def absorb {α : Type} (p : Progress) (c : Checked α) : Progress :=
  { p with events := p.events ++ c.events }

/-- Let an event come up. -/
def note (p : Progress) (event : Event) : Progress := p.absorb (Checked.note event)

/-- Report a violation. -/
def report (p : Progress) (v : Violation) : Progress := p.absorb (Checked.report v)

/-- Report a violation unless a condition holds. -/
@[inline] def demand (p : Progress) (holds : Bool) (v : Violation) : Progress :=
  if holds then p else p.report v

/-- Change the local names. -/
def inScope (p : Progress) (f : Scope → Scope) : Progress := { p with scope := f p.scope }

/-- Declare a local name; a name that the frame has already is noted and left alone. -/
def define (p : Progress) (b : Binding) (span : Option Span) : Progress :=
  match p.scope.define? b with
  | some scope => { p with scope := scope }
  | none => p.note (.duplicate b.name span)

end Progress

namespace Stmt

/-- The violation of a rule by a statement. -/
def breaks (s : Stmt) (rule : Rule) : Violation := .broken rule s.render s.span

end Stmt

namespace Context

/-- Whether the traversal leaves out what comes next. -/
def halts (ctx : Context) (p : Progress) : Bool := ctx.walk = .untilSettled && p.settled

/-- Check a value against the names so far, and go on with its type. -/
def withValue {α : Type} (ctx : Context) (e : Expr) (p : Progress)
    (next : ExprTy → Progress → α) : α :=
  let c := ctx.valueType p.scope e
  next c.value (p.absorb c)

/-! ## Declarations -/

/-- Check the initial value of a local name, if it has one. -/
def localInit (ctx : Context) (isFinal : Bool) (declared : Ty) (stmt : Stmt) (d : Declarator)
    (p : Progress) : Progress :=
  match d.init with
  | some init => p.absorb (ctx.initializer p.scope isFinal declared init stmt.breaks)
  | none => p

/-- Declare local names in order, up to one that the frame has already. -/
def declareLocals (ctx : Context) (isFinal : Bool) (declared : Ty) (stmt : Stmt) :
    List Declarator → Progress → Progress
  | [], p => p
  | d :: ds, p =>
    if (p.scope.lookupLocal? d.name).isSome then
      p.report (.broken (.redeclared (if isFinal then .constant else .variable)) d.name d.span)
    else
      let p := ctx.localInit isFinal declared stmt d p
      let kind := if isFinal then .constant else .variable
      ctx.declareLocals isFinal declared stmt ds
        (p.define ⟨d.name, kind, declared, d.init.isSome⟩ none)

/-! ## Assignments -/

/-- Whether a constructor may give a final attribute its value here: through the running
object, in the class that declares it, if it has no initial value and for the first time. -/
def mayInitialize (ctx : Context) (p : Progress) (object : Expr) (name owner : String)
    (info : AttributeInfo) : Bool :=
  ctx.inCtor && !info.hasInit && owner = ctx.className && object.isSelf &&
    !p.assigned.contains name

/-- Write to an attribute behind a dot. -/
def writeAttribute (ctx : Context) (stmt : Stmt) (object : Expr) (name owner : String)
    (info : AttributeInfo) (p : Progress) : Progress :=
  if info.isFinal then
    if ctx.mayInitialize p object name owner info then { p with assigned := name :: p.assigned }
    else p.report (stmt.breaks .cannotAssignToConstant)
  else p

/-- Write to a name. -/
def writeName (ctx : Context) (stmt : Stmt) (name : String) (span : Span) (p : Progress) :
    ExprTy × Progress :=
  match p.scope.lookup? name with
  | some b =>
    let p := if b.isAssignable then p.inScope (·.markInitialized name)
      else p.report (stmt.breaks .cannotAssignToConstant)
    (.value b.type, p)
  | none =>
    match ctx.table.findAttribute? ctx.className name with
    | some (_, info) =>
      (.value info.type, p.demand (!info.isFinal) (stmt.breaks .cannotAssignToConstant))
    | none =>
      if ctx.table.contains name then (.unknown, p.report (stmt.breaks .mismatchInStatement))
      else (.unknown, p.report (.broken .undeclaredIdentifier name span))

/-- Check the left side of an assignment: what it takes, and that it can be written to.
Elements can be written even if the array is a constant. -/
def target (ctx : Context) (stmt : Stmt) (place : Expr) (p : Progress) : ExprTy × Progress :=
  match place with
  | .ident name span => ctx.writeName stmt name span p
  | .field object name _ =>
    ctx.withValue object p fun type p =>
      let c := ctx.attribute? place name type
      let p := p.absorb c
      match c.value with
      | some (owner, info) =>
        (.value info.type, ctx.writeAttribute stmt object name owner info p)
      | none => (.unknown, p)
  | _ => ctx.withValue place p fun type p => (type, p)

/-- Check an assignment: the value first, then the place it goes to. -/
def assignment (ctx : Context) (place value : Expr) (stmt : Stmt) (p : Progress) : Progress :=
  ctx.withValue value p fun actual p =>
    match ctx.target stmt place p with
    | (.known expected, p) =>
      p.demand (ctx.table.compatible expected actual) (stmt.breaks .mismatchInStatement)
    | (_, p) => p

/-! ## Branches, loops and returns -/

/-- Check the condition of a branch. -/
def condition (ctx : Context) (e : Expr) (stmt : Stmt) (p : Progress) : Progress :=
  ctx.withValue e p fun type p => p.demand type.admitsBoolean (stmt.breaks .mismatchInStatement)

/-- The counter of a loop if there is a name for it already: whether it can be written, and its
type. -/
def counter? (ctx : Context) (scope : Scope) (name : String) : Option (Bool × Ty) :=
  match scope.lookup? name with
  | some b => some (b.isAssignable, b.type)
  | none =>
    (ctx.table.findAttribute? ctx.className name).map fun (_, info) => (!info.isFinal, info.type)

/-- Check the counter of a loop, which is declared if there is no name for it. -/
def counter (ctx : Context) (id : Ident) (stmt : Stmt) (p : Progress) : Progress :=
  match ctx.counter? p.scope id.name with
  | some (writable, type) =>
    let p := p.demand writable (stmt.breaks .cannotAssignToConstant)
    p.demand type.isInt (stmt.breaks .mismatchInStatement)
  | none => p.define ⟨id.name, .variable, .int, true⟩ (some id.span)

/-- Check the bounds of a loop. -/
def bounds (ctx : Context) (first last : Expr) (stmt : Stmt) (p : Progress) : Progress :=
  ctx.withValue first p fun a p =>
    ctx.withValue last p fun b p =>
      p.demand (a.admitsInt && b.admitsInt) (stmt.breaks .mismatchInStatement)

/-- Check a return against the result of the member. -/
def returned (ctx : Context) (value : Option Expr) (stmt : Stmt) (p : Progress) : Progress :=
  match value with
  | none => p.demand ctx.result.isNone (stmt.breaks .mismatchInStatement)
  | some e =>
    ctx.withValue e p fun actual p =>
      let fits := ctx.result.any fun expected => ctx.table.compatible expected actual
      p.demand fits (stmt.breaks .mismatchInStatement)

/-! ## Statements -/

mutual

/-- Check a statement. -/
def statement (ctx : Context) (s : Stmt) (p : Progress) : Progress :=
  if ctx.halts p then p
  else match s with
    | .declare isFinal type ds span =>
      ctx.declareLocals isFinal (.ofWritten type) (.declare isFinal type ds span) ds
        (p.absorb (ctx.demandType type))
    | .assign place value span => ctx.assignment place value (.assign place value span) p
    | .ifThen cond thenBranch span =>
      let p := ctx.condition cond (.ifThen cond thenBranch span) p
      (ctx.statement thenBranch (p.inScope .push)).inScope .pop
    | .ifElse cond thenBranch elseBranch span =>
      let p := ctx.condition cond (.ifElse cond thenBranch elseBranch span) p
      let p := (ctx.statement thenBranch (p.inScope .push)).inScope .pop
      (ctx.statement elseBranch (p.inScope .push)).inScope .pop
    | .loop id first last direction body span =>
      let whole := .loop id first last direction body span
      let p := ctx.counter id whole (p.inScope .push)
      let p := ctx.bounds first last whole p
      let p := (p.inScope .enterLoop).inScope .push
      let p := (ctx.statement body p).inScope .pop
      (p.inScope .exitLoop).inScope .pop
    | .breakLoop span => p.demand p.scope.inLoop (Stmt.breaks (.breakLoop span) .mustInLoop)
    | .continueLoop span => p.demand p.scope.inLoop (Stmt.breaks (.continueLoop span) .mustInLoop)
    | .returnValue value span => ctx.returned value (.returnValue value span) p
    | .call invocation _ => p.absorb (ctx.exprType p.scope invocation)
    | .block stmts _ => (ctx.statements stmts (p.inScope .push)).inScope .pop

/-- Check statements in order. -/
def statements (ctx : Context) (ss : List Stmt) (p : Progress) : Progress :=
  match ss with
  | [] => p
  | s :: ss => ctx.statements ss (ctx.statement s p)

end

end Context

end ClassCheck
