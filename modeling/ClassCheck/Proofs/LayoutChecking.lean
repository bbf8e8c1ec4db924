import ClassCheck.Proofs.Spanless
import ClassCheck.Proofs.Traversal

/-!
# Checking without spans

A check copies spans into what it reports and never looks at them. So to strip a program first
and check it then finds the same as to check it first and strip what was found, event by event.
-/

namespace ClassCheck

namespace Checked

/-- The same value, and the events without spans. -/
def spanless {α : Type} (c : Checked α) : Checked α := ⟨c.value, c.events.map Event.spanless⟩

@[simp] private theorem value_spanless {α : Type} (c : Checked α) :
    c.spanless.value = c.value := rfl

/-- The events are all that is stripped of a check. -/
@[simp] theorem events_spanless {α : Type} (c : Checked α) :
    c.spanless.events = c.events.map Event.spanless := rfl

@[simp] private theorem spanless_pure {α : Type} (a : α) :
    (pure a : Checked α).spanless = pure a := rfl

/-- Checks one after another are stripped one by one. -/
@[simp] theorem spanless_bind {α β : Type} (c : Checked α) (f : α → Checked β) :
    (c >>= f).spanless = c.spanless >>= fun a => (f a).spanless :=
  congrArg (Checked.mk _) List.map_append

@[simp] private theorem spanless_note (event : Event) :
    (note event).spanless = note event.spanless := rfl

@[simp] private theorem spanless_report (v : Violation) :
    (report v).spanless = report v.spanless := rfl

end Checked

/-! ## Expressions -/

namespace Expr

@[simp] private theorem breaks_spanless (e : Expr) (rule : Rule) :
    e.spanless.breaks rule = (e.breaks rule).spanless := by
  rw [breaks, render_spanless, span_spanless, breaks, Violation.spanless]

/-- Parentheses are taken off stripped or not. -/
@[simp] theorem bare_spanless (e : Expr) : e.spanless.bare = e.bare.spanless := by
  fun_induction bare e with
  | case1 inner span ih => exact ih
  | case2 e h => cases e <;> first | rfl | exact (h _ _ rfl).elim

/-- The running object is meant wherever it stands. -/
@[simp] theorem isSelf_spanless (e : Expr) : e.spanless.isSelf = e.isSelf := by
  unfold isSelf
  rw [bare_spanless]
  cases e.bare <;> rfl

mutual

/-- The first part of an expression that is not constant is found wherever it stands. -/
theorem firstNonConstant?_spanless (e : Expr) :
    e.spanless.firstNonConstant? = e.firstNonConstant?.map spanless := by
  match e with
  | .int .. | .float .. | .bool .. | .string .. | .nil _ | .self _ | .ident .. | .field ..
  | .call .. | .index .. | .create .. => rfl
  | .binary _ left right _ =>
    rw [spanless, firstNonConstant?, firstNonConstant?, left.firstNonConstant?_spanless,
      right.firstNonConstant?_spanless, Option.map_or]
  | .unary _ operand _ => exact operand.firstNonConstant?_spanless
  | .paren inner _ => exact inner.firstNonConstant?_spanless
  | .array elements _ => exact firstNonConstantOf?_spanless elements

private theorem firstNonConstantOf?_spanless (es : List Expr) :
    firstNonConstantOf? (spanlessAll es) = (firstNonConstantOf? es).map spanless := by
  match es with
  | [] => rfl
  | e :: es =>
    rw [spanlessAll, firstNonConstantOf?, firstNonConstantOf?, e.firstNonConstant?_spanless,
      firstNonConstantOf?_spanless es, Option.map_or]

end

end Expr

namespace Checked

@[simp] private theorem poison_spanless (e : Expr) (rule : Rule) :
    poison e.spanless rule = (poison e rule).spanless := by
  simp [poison]

@[simp] private theorem orMismatch_spanless (e : Expr) (type : Option ExprTy) :
    orMismatch e.spanless type = (orMismatch e type).spanless := by
  cases type with
  | none => exact poison_spanless e _
  | some type => rfl

@[simp] private theorem demandValue_spanless (e : Expr) (c : Checked ExprTy) :
    demandValue e.spanless c.spanless = (demandValue e c).spanless := by
  rw [demandValue, demandValue, spanless_bind]
  refine congrArg (c.spanless >>= ·) (funext fun type => ?_)
  cases type with
  | void => exact poison_spanless e _
  | _ => rfl

end Checked

namespace Context

open Checked

variable (ctx : Context)

private theorem selfType_spanless (e : Expr) :
    ctx.selfType e.spanless = (ctx.selfType e).spanless := by
  unfold selfType
  split
  · exact poison_spanless e _
  · rfl

private theorem readLocal_spanless (b : Binding) : (readLocal b).spanless = readLocal b := by
  unfold readLocal
  cases b.initialized <;> cases b.kind <;> rfl

/-- A name gets the same type, and is blamed without its place. -/
theorem identType_spanless (scope : Scope) (name : String) (e : Expr) :
    ctx.identType scope name e.spanless = (ctx.identType scope name e).spanless := by
  unfold identType
  split
  · exact (readLocal_spanless _).symm
  · split
    · rfl
    · split
      · rfl
      · rw [Expr.span_spanless]
        rfl

private theorem receiver?_spanless (access : Expr) (object : ExprTy) :
    ctx.receiver? access.spanless object = (ctx.receiver? access object).spanless := by
  unfold receiver?
  split <;> simp

/-- An attribute behind a dot is found alike, and blamed without its place. -/
theorem attribute?_spanless (access : Expr) (name : String) (object : ExprTy) :
    ctx.attribute? access.spanless name object = (ctx.attribute? access name object).spanless := by
  rw [attribute?, attribute?, receiver?_spanless, spanless_bind]
  refine congrArg (_ >>= ·) (funext fun receiver => ?_)
  cases receiver with
  | none => rfl
  | some receiver =>
    dsimp only
    split
    · rw [Expr.span_spanless]
      rfl
    · split
      · rfl
      · rw [Expr.breaks_spanless]
        rfl

/-- So is a method. -/
theorem method?_spanless (call : Expr) (name : String) (object : ExprTy) :
    ctx.method? call.spanless name object = (ctx.method? call name object).spanless := by
  rw [method?, method?, receiver?_spanless, spanless_bind]
  refine congrArg (_ >>= ·) (funext fun receiver => ?_)
  cases receiver with
  | none => rfl
  | some receiver =>
    dsimp only
    split
    · rw [Expr.span_spanless]
      rfl
    · split
      · rfl
      · rw [Expr.breaks_spanless]
        rfl

private theorem callResult_spanless (call : Expr) (signature : Option Signature)
    (args : List ExprTy) :
    ctx.callResult call.spanless signature args =
      (ctx.callResult call signature args).spanless := by
  cases signature with
  | none => rfl
  | some signature =>
    unfold callResult
    dsimp only
    split
    · rfl
    · exact poison_spanless call _

private theorem demandClass_spanless (className : String) (e : Expr) :
    ctx.demandClass className e.spanless = (ctx.demandClass className e).spanless := by
  unfold demandClass
  cases ctx.table.contains className with
  | true => rfl
  | false =>
    rw [Expr.span_spanless]
    rfl

private theorem createResult_spanless (e : Expr) (className : String) (args : List ExprTy) :
    ctx.createResult e.spanless className args = (ctx.createResult e className args).spanless := by
  unfold createResult
  split
  · dsimp only
    split
    · rfl
    · exact poison_spanless e _
  · rfl

private theorem arrayResult_spanless (e : Expr) (types : List ExprTy) :
    arrayResult e.spanless types = (arrayResult e types).spanless := by
  unfold arrayResult
  split
  · rfl
  · split
    · rfl
    · exact poison_spanless e _

private theorem elementResult_spanless (e : Expr) (object position : ExprTy) :
    elementResult e.spanless object position = (elementResult e object position).spanless :=
  orMismatch_spanless e _

mutual

/-- An expression without spans has the same type and the same events without spans. -/
theorem exprType_spanless (scope : Scope) (e : Expr) :
    ctx.exprType scope e.spanless = (ctx.exprType scope e).spanless := by
  match e with
  | .int .. | .float .. | .bool .. | .string .. | .nil _ =>
    simp only [Expr.spanless, exprType, spanless_pure]
  | .self span => simpa only [Expr.spanless, exprType] using ctx.selfType_spanless (.self span)
  | .ident name span =>
    simpa only [Expr.spanless, exprType] using ctx.identType_spanless scope name (.ident name span)
  | .paren inner _ => simpa only [Expr.spanless, exprType] using exprType_spanless scope inner
  | .binary op left right span =>
    have hwhole := orMismatch_spanless (.binary op left right span)
    rw [Expr.spanless] at hwhole ⊢
    simp only [exprType, exprType_spanless scope left, exprType_spanless scope right,
      demandValue_spanless, spanless_bind, hwhole]
  | .unary op operand span =>
    have hwhole := orMismatch_spanless (.unary op operand span)
    rw [Expr.spanless] at hwhole ⊢
    simp only [exprType, exprType_spanless scope operand, demandValue_spanless, spanless_bind,
      hwhole]
  | .index object position span =>
    have hwhole := elementResult_spanless (.index object position span)
    rw [Expr.spanless] at hwhole ⊢
    simp only [exprType, exprType_spanless scope object, exprType_spanless scope position,
      demandValue_spanless, spanless_bind, hwhole]
  | .field object name span =>
    have hwhole := ctx.attribute?_spanless (.field object name span)
    rw [Expr.spanless] at hwhole ⊢
    simp only [exprType, exprType_spanless scope object, demandValue_spanless, spanless_bind,
      hwhole]
    refine congrArg (_ >>= ·) (funext fun type => congrArg (_ >>= ·) (funext fun found => ?_))
    cases found <;> rfl
  | .call receiver method args span =>
    have hmethod := ctx.method?_spanless (.call receiver method args span)
    have hwhole := ctx.callResult_spanless (.call receiver method args span)
    rw [Expr.spanless] at hmethod hwhole ⊢
    simp only [exprType, exprType_spanless scope receiver, valueTypes_spanless scope args,
      demandValue_spanless, spanless_bind, hmethod, hwhole]
  | .create className args span =>
    have hclass := ctx.demandClass_spanless className (.create className args span)
    have hwhole := ctx.createResult_spanless (.create className args span)
    rw [Expr.spanless] at hclass hwhole ⊢
    simp only [exprType, valueTypes_spanless scope args, spanless_bind, hclass, hwhole]
  | .array elements span =>
    have hwhole := arrayResult_spanless (.array elements span)
    rw [Expr.spanless] at hwhole ⊢
    simp only [exprType, valueTypes_spanless scope elements, spanless_bind, hwhole]

/-- Values in order are stripped one by one. -/
theorem valueTypes_spanless (scope : Scope) (es : List Expr) :
    ctx.valueTypes scope (Expr.spanlessAll es) = (ctx.valueTypes scope es).spanless := by
  match es with
  | [] => simp only [Expr.spanlessAll, valueTypes, spanless_pure]
  | e :: es =>
    simp only [Expr.spanlessAll, valueTypes, exprType_spanless scope e,
      valueTypes_spanless scope es, demandValue_spanless, spanless_bind, spanless_pure]

end

/-- So is a value. -/
@[simp] theorem valueType_spanless (scope : Scope) (e : Expr) :
    ctx.valueType scope e.spanless = (ctx.valueType scope e).spanless := by
  rw [valueType, exprType_spanless, demandValue_spanless, valueType]

/-- A written type is blamed without its place. -/
@[simp] theorem demandType_spanless (type : WrittenType) :
    ctx.demandType type.spanless = (ctx.demandType type).spanless := by
  unfold demandType
  rw [WrittenType.className?_spanless]
  cases type.className? with
  | none => rfl
  | some c =>
    dsimp only [Option.map, Ident.spanless]
    cases ctx.table.contains c.name <;> rfl

/-- An initial value is blamed as its declaration is. -/
theorem initializer_spanless (scope : Scope) (isFinal : Bool) (declared : Ty) (init : Expr)
    {blame' blame : Rule → Violation} (hblame : ∀ rule, blame' rule = (blame rule).spanless) :
    ctx.initializer scope isFinal declared init.spanless blame' =
      (ctx.initializer scope isFinal declared init blame).spanless := by
  unfold initializer
  rw [valueType_spanless, spanless_bind]
  refine congrArg (_ >>= ·) (funext fun actual => ?_)
  rw [hblame, Expr.firstNonConstant?_spanless, Expr.breaks_spanless]
  cases ctx.table.compatible declared actual <;> cases isFinal <;>
    cases init.firstNonConstant? <;> simp [Event.spanless]

end Context

/-! ## Statements -/

namespace Progress

/-- The progress with events without spans. -/
def spanless (p : Progress) : Progress := { p with events := p.events.map Event.spanless }

section

variable (p : Progress)

@[simp] private theorem scope_spanless : p.spanless.scope = p.scope := rfl

@[simp] private theorem assigned_spanless : p.spanless.assigned = p.assigned := rfl

/-- Whether a traversal is settled does not depend on spans. -/
@[simp] theorem settled_spanless : p.spanless.settled = p.settled := by
  simp [settled, spanless, List.any_map, Function.comp_def]

/-- Events may be stripped before they are added. -/
@[simp] theorem absorb_spanless {α : Type} (c : Checked α) :
    p.spanless.absorb c.spanless = (p.absorb c).spanless := by
  simp [absorb, spanless]

@[simp] private theorem report_spanless (v : Violation) :
    p.spanless.report v.spanless = (p.report v).spanless :=
  p.absorb_spanless (Checked.report v)

@[simp] private theorem note_spanless (event : Event) :
    p.spanless.note event.spanless = (p.note event).spanless :=
  p.absorb_spanless (Checked.note event)

@[simp] private theorem demand_spanless (holds : Bool) (v : Violation) :
    p.spanless.demand holds v.spanless = (p.demand holds v).spanless := by
  cases holds with
  | true => rfl
  | false => exact p.report_spanless v

@[simp] private theorem inScope_spanless (f : Scope → Scope) :
    p.spanless.inScope f = (p.inScope f).spanless := rfl

/-- A name that is declared twice is noted without its place. -/
theorem define_spanless (b : Binding) (span : Option Span) :
    p.spanless.define b (span.map fun _ => .nowhere) = (p.define b span).spanless := by
  unfold define
  rw [scope_spanless]
  cases p.scope.define? b with
  | some scope => rfl
  | none => exact p.note_spanless (.duplicate b.name span)

end

end Progress

@[simp] private theorem Stmt.breaks_spanless (s : Stmt) (rule : Rule) :
    s.spanless.breaks rule = (s.breaks rule).spanless := by
  rw [breaks, render_spanless, span_spanless, breaks, Violation.spanless]

namespace Context

variable (ctx : Context)

@[simp] private theorem halts_spanless (p : Progress) : ctx.halts p.spanless = ctx.halts p := by
  rw [halts, Progress.settled_spanless, halts]

private theorem localInit_spanless (isFinal : Bool) (declared : Ty) (stmt : Stmt) (d : Declarator)
    (p : Progress) :
    ctx.localInit isFinal declared stmt.spanless d.spanless p.spanless =
      (ctx.localInit isFinal declared stmt d p).spanless := by
  unfold localInit Declarator.spanless
  cases d.init with
  | none => rfl
  | some init =>
    dsimp only [Option.map]
    rw [Progress.scope_spanless,
      ctx.initializer_spanless p.scope isFinal declared init stmt.breaks_spanless,
      Progress.absorb_spanless]

/-- Local names are declared up to the same one. -/
theorem declareLocals_spanless (isFinal : Bool) (declared : Ty) (stmt : Stmt)
    (ds : List Declarator) (p : Progress) :
    ctx.declareLocals isFinal declared stmt.spanless (ds.map Declarator.spanless) p.spanless =
      (ctx.declareLocals isFinal declared stmt ds p).spanless := by
  induction ds generalizing p with
  | nil => rfl
  | cons d ds ih =>
    have hinit : d.spanless.init.isSome = d.init.isSome := Option.isSome_map
    rw [List.map_cons, declareLocals, declareLocals, Progress.scope_spanless, hinit]
    change (if (p.scope.lookupLocal? d.name).isSome = true then _ else _) = _
    split
    · exact p.report_spanless (.broken _ d.name d.span)
    · dsimp only
      rw [localInit_spanless, ← ih]
      exact congrArg _ (Progress.define_spanless _ ⟨d.name, _, declared, _⟩ none)

private theorem writeAttribute_spanless (stmt : Stmt) (object : Expr) (name owner : String)
    (info : AttributeInfo) (p : Progress) :
    ctx.writeAttribute stmt.spanless object.spanless name owner info p.spanless =
      (ctx.writeAttribute stmt object name owner info p).spanless := by
  unfold writeAttribute mayInitialize
  rw [Progress.assigned_spanless, Expr.isSelf_spanless, Stmt.breaks_spanless,
    Progress.report_spanless]
  split
  · split <;> rfl
  · rfl

/-- A write to a name changes the same frame. -/
theorem writeName_spanless (stmt : Stmt) (name : String) (span : Span) (p : Progress) :
    ctx.writeName stmt.spanless name .nowhere p.spanless =
      ((ctx.writeName stmt name span p).1, (ctx.writeName stmt name span p).2.spanless) := by
  unfold writeName
  simp only [Progress.scope_spanless, Stmt.breaks_spanless, Progress.report_spanless,
    Progress.demand_spanless]
  cases p.scope.lookup? name with
  | some b =>
    dsimp only
    split <;> rfl
  | none =>
    cases ctx.table.findAttribute? ctx.className name with
    | some found => rfl
    | none =>
      dsimp only
      split
      · rfl
      · exact congrArg (Prod.mk _) (p.report_spanless (.broken _ name span))

private theorem withValue_spanless (e : Expr) (p : Progress) :
    ctx.withValue e.spanless p.spanless Prod.mk =
      ((ctx.withValue e p Prod.mk).1, (ctx.withValue e p Prod.mk).2.spanless) := by
  simp only [withValue, Progress.scope_spanless, valueType_spanless, Progress.absorb_spanless,
    Checked.value_spanless]

/-- A place to write to is found alike. -/
theorem target_spanless (stmt : Stmt) (place : Expr) (p : Progress) :
    ctx.target stmt.spanless place.spanless p.spanless =
      ((ctx.target stmt place p).1, (ctx.target stmt place p).2.spanless) := by
  have hother := ctx.withValue_spanless place p
  cases place with
  | ident name span => exact ctx.writeName_spanless stmt name span p
  | field object name span =>
    have hwhole := ctx.attribute?_spanless (.field object name span)
    rw [Expr.spanless] at hwhole ⊢
    simp only [target, withValue, Progress.scope_spanless, valueType_spanless, hwhole,
      Progress.absorb_spanless, Checked.value_spanless]
    split
    · rw [writeAttribute_spanless]
    · rfl
  | _ => exact hother

private theorem assignment_spanless (place value : Expr) (stmt : Stmt) (p : Progress) :
    ctx.assignment place.spanless value.spanless stmt.spanless p.spanless =
      (ctx.assignment place value stmt p).spanless := by
  simp only [assignment, withValue, Progress.scope_spanless, valueType_spanless,
    Progress.absorb_spanless, Checked.value_spanless, target_spanless]
  rcases ctx.target stmt place (p.absorb (ctx.valueType p.scope value)) with ⟨type, q⟩
  cases type with
  | known expected =>
    dsimp only
    rw [Stmt.breaks_spanless, Progress.demand_spanless]
  | _ => rfl

private theorem condition_spanless (e : Expr) (stmt : Stmt) (p : Progress) :
    ctx.condition e.spanless stmt.spanless p.spanless = (ctx.condition e stmt p).spanless := by
  simp only [condition, withValue, Progress.scope_spanless, valueType_spanless,
    Progress.absorb_spanless, Checked.value_spanless, Stmt.breaks_spanless,
    Progress.demand_spanless]

/-- The head of a loop declares the same counter. -/
theorem loopHead_spanless (id : Ident) (first last : Expr) (stmt : Stmt) (p : Progress) :
    ctx.loopHead id.spanless first.spanless last.spanless stmt.spanless p.spanless =
      (ctx.loopHead id first last stmt p).spanless := by
  have hcounter : ∀ q : Progress, ctx.counter id.spanless stmt.spanless q.spanless =
      (ctx.counter id stmt q).spanless := by
    intro q
    unfold counter
    rw [Progress.scope_spanless, Ident.spanless]
    dsimp only
    split
    · rw [Stmt.breaks_spanless, Stmt.breaks_spanless, Progress.demand_spanless,
        Progress.demand_spanless]
    · exact q.define_spanless _ (some id.span)
  rw [loopHead, loopHead, Progress.inScope_spanless, hcounter]
  simp only [bounds, withValue, Progress.scope_spanless, valueType_spanless,
    Progress.absorb_spanless, Checked.value_spanless, Stmt.breaks_spanless,
    Progress.demand_spanless]

private theorem returned_spanless (value : Option Expr) (stmt : Stmt) (p : Progress) :
    ctx.returned (value.map Expr.spanless) stmt.spanless p.spanless =
      (ctx.returned value stmt p).spanless := by
  cases value with
  | none =>
    dsimp only [Option.map, returned]
    rw [Stmt.breaks_spanless, Progress.demand_spanless]
  | some e =>
    simp only [Option.map, returned, withValue, Progress.scope_spanless, valueType_spanless,
      Progress.absorb_spanless, Checked.value_spanless, Stmt.breaks_spanless,
      Progress.demand_spanless]

mutual

/-- A statement without spans has the same events without spans. -/
theorem statement_spanless (s : Stmt) (p : Progress) :
    ctx.statement s.spanless p.spanless = (ctx.statement s p).spanless := by
  cases hh : ctx.halts p with
  | true => rw [statement_of_halts hh, statement_of_halts (by rwa [halts_spanless])]
  | false =>
    have hh' : ctx.halts p.spanless = false := by rwa [halts_spanless]
    cases s with
    | declare isFinal type ds span =>
      have hlocals := ctx.declareLocals_spanless isFinal (.ofWritten type)
        (.declare isFinal type ds span) ds
      rw [Stmt.spanless] at hlocals ⊢
      rw [statement_declare hh, statement_declare hh', demandType_spanless, Ty.ofWritten_spanless,
        Progress.absorb_spanless, hlocals]
    | assign place value span =>
      have hwhole := ctx.assignment_spanless place value (.assign place value span)
      rw [Stmt.spanless] at hwhole ⊢
      rw [statement_assign hh, statement_assign hh', hwhole]
    | ifThen cond thenBranch span =>
      have hcond := ctx.condition_spanless cond (.ifThen cond thenBranch span)
      rw [Stmt.spanless] at hcond ⊢
      rw [statement_ifThen hh, statement_ifThen hh', hcond, nested_spanless thenBranch]
    | ifElse cond thenBranch elseBranch span =>
      have hcond := ctx.condition_spanless cond (.ifElse cond thenBranch elseBranch span)
      rw [Stmt.spanless] at hcond ⊢
      rw [statement_ifElse hh, statement_ifElse hh', hcond, nested_spanless thenBranch,
        nested_spanless elseBranch]
    | loop id first last direction body span =>
      have hhead := ctx.loopHead_spanless id first last (.loop id first last direction body span)
      rw [Stmt.spanless] at hhead ⊢
      rw [statement_loop hh, statement_loop hh', hhead, Progress.inScope_spanless,
        nested_spanless body, Progress.inScope_spanless, Progress.inScope_spanless]
    | breakLoop span =>
      have hbreaks := Stmt.breaks_spanless (.breakLoop span)
      rw [Stmt.spanless] at hbreaks ⊢
      rw [statement_breakLoop hh, statement_breakLoop hh', hbreaks, Progress.demand_spanless,
        Progress.scope_spanless]
    | continueLoop span =>
      have hbreaks := Stmt.breaks_spanless (.continueLoop span)
      rw [Stmt.spanless] at hbreaks ⊢
      rw [statement_continueLoop hh, statement_continueLoop hh', hbreaks,
        Progress.demand_spanless, Progress.scope_spanless]
    | returnValue value span =>
      have hwhole := ctx.returned_spanless value (.returnValue value span)
      rw [Stmt.spanless] at hwhole ⊢
      rw [statement_returnValue hh, statement_returnValue hh', hwhole]
    | call invocation span =>
      rw [Stmt.spanless, statement_call hh, statement_call hh', exprType_spanless,
        Progress.absorb_spanless, Progress.scope_spanless]
    | block stmts span =>
      rw [Stmt.spanless, statement_block hh, statement_block hh', Progress.inScope_spanless,
        statements_spanless stmts, Progress.inScope_spanless]
termination_by (sizeOf s, 0)

private theorem nested_spanless (s : Stmt) (p : Progress) :
    ctx.nested s.spanless p.spanless = (ctx.nested s p).spanless := by
  rw [nested, nested, Progress.inScope_spanless, statement_spanless s, Progress.inScope_spanless]
termination_by (sizeOf s, 1)

/-- Statements in order are stripped one by one. -/
theorem statements_spanless (ss : List Stmt) (p : Progress) :
    ctx.statements (Stmt.spanlessAll ss) p.spanless = (ctx.statements ss p).spanless := by
  cases ss with
  | nil => rw [Stmt.spanlessAll, statements_nil, statements_nil]
  | cons s ss =>
    rw [Stmt.spanlessAll, statements_cons, statements_cons, statement_spanless s,
      statements_spanless ss]
termination_by (sizeOf ss, 0)

end

/-! ## Members, classes and programs -/

private theorem attributeInits_spanless (decl : AttributeDecl) (ds : List Declarator)
    (p : Progress) :
    ctx.attributeInits decl.spanless (ds.map Declarator.spanless) p.spanless =
      (ctx.attributeInits decl ds p).spanless := by
  induction ds generalizing p with
  | nil => rfl
  | cons d ds ih =>
    rw [List.map_cons, attributeInits, attributeInits, ← ih]
    refine congrArg _ ?_
    cases hd : d.init with
    | none => simp only [Declarator.spanless, hd, Option.map]
    | some init =>
      have hblame : ∀ rule, Violation.broken rule decl.spanless.render .nowhere =
          (Violation.broken rule decl.render d.span).spanless := by
        intro rule
        rw [AttributeDecl.render_spanless, Violation.spanless]
      simp only [Declarator.spanless, hd, Option.map]
      rw [Progress.scope_spanless, ctx.initializer_spanless _ _ _ _ hblame,
        Progress.absorb_spanless, AttributeDecl.spanless, Ty.ofWritten_spanless]

/-- Parameters are declared alike. -/
theorem declareParams_spanless (params : List Param) (p : Progress) :
    ctx.declareParams (params.map Param.spanless) p.spanless =
      (ctx.declareParams params p).spanless := by
  induction params generalizing p with
  | nil => rfl
  | cons param params ih =>
    rw [List.map_cons, declareParams, declareParams, ← ih]
    refine congrArg _ ?_
    simp only [Param.spanless, demandType_spanless, Ty.ofWritten_spanless, Progress.absorb_spanless,
      Progress.scope_spanless]
    split
    · rfl
    · exact Progress.report_spanless _ (.broken _ param.name param.span)

private theorem body_spanless (params : List Param) (b : Block) (p : Progress) :
    ctx.body (params.map Param.spanless) b.spanless p.spanless =
      (ctx.body params b p).spanless := by
  rw [body, body, Progress.inScope_spanless, declareParams_spanless, Block.spanless,
    ← Stmt.spanlessAll_eq_map, statements_spanless, Progress.inScope_spanless]

/-- The context of a member has no spans. -/
theorem inMember_spanless (m : Member) : ctx.inMember m.spanless = ctx.inMember m := by
  rcases m with ⟨decl, span⟩ | ⟨decl, span⟩ | ⟨decl, span⟩ | ⟨decl, span⟩
  · rfl
  · exact congrArg (ctx.enter decl.isStatic false) (Ty.map_ofWritten_spanless decl.result)
  all_goals rfl

/-- A member is checked alike, and blamed without its place. -/
theorem member_spanless (m : Member) (p : Progress) :
    ctx.member m.spanless p.spanless = (ctx.member m p).spanless := by
  have hbreaks : ∀ rule, m.spanless.breaks rule = (m.breaks rule).spanless := by
    intro rule
    rw [Member.breaks, Member.render_spanless, Member.span_spanless, Member.breaks,
      Violation.spanless]
  have hclear : { p.spanless with assigned := [] } =
      Progress.spanless { p with assigned := [] } := rfl
  have hin := ctx.inMember_spanless m
  match m with
  | .attribute decl span =>
    rw [Member.spanless] at hin ⊢
    rw [member, member, hin]
    refine (congrArg _ ?_).trans (attributeInits_spanless _ decl decl.declarators _)
    rw [hclear, AttributeDecl.spanless, demandType_spanless, Progress.absorb_spanless]
  | .method decl span =>
    rw [Member.spanless] at hin ⊢
    rw [member, member, hin]
    refine (congrArg _ ?_).trans (body_spanless _ decl.params decl.body _)
    rw [MethodDecl.spanless]
    cases decl.result with
    | none => rfl
    | some type =>
      dsimp only [Option.map]
      rw [hclear, demandType_spanless, Progress.absorb_spanless]
  | .ctor decl span =>
    rw [member, ← body_spanless, ← Progress.demand_spanless, ← hbreaks]
    rfl
  | .dtor decl span =>
    rw [member, ← body_spanless, ← Progress.demand_spanless, ← hbreaks]
    rfl

/-- So are members in order. -/
theorem members_spanless (ms : List Member) (p : Progress) :
    ctx.members (ms.map Member.spanless) p.spanless = (ctx.members ms p).spanless := by
  induction ms generalizing p with
  | nil => rfl
  | cons m ms ih =>
    rw [List.map_cons, members, members, halts_spanless, member_spanless, ih]
    split <;> rfl

end Context

/-- A computation that may fail with a violation, without the span of that. -/
theorem mapError_bind {ε ε' α β : Type} (f : ε → ε') (x : Except ε α) (g : α → Except ε β) :
    (x >>= g).mapError f = x.mapError f >>= fun a => (g a).mapError f := by
  cases x <;> rfl

namespace ClassTable

private theorem redeclared_spanless {α : Type} (subject : String) (span : Span)
    (added : Except Declared α) :
    redeclared subject .nowhere added =
      (redeclared subject span added).mapError Violation.spanless := by
  cases added <;> rfl

/-- Attributes are declared up to the same one. -/
theorem declareAttributes_spanless (decl : AttributeDecl) (ds : List Declarator) (e : ClassEntry) :
    declareAttributes decl.spanless (ds.map Declarator.spanless) e =
      (declareAttributes decl ds e).mapError Violation.spanless := by
  induction ds generalizing e with
  | nil => rfl
  | cons d ds ih =>
    have hinit : d.spanless.init.isSome = d.init.isSome := Option.isSome_map
    rw [List.map_cons, declareAttributes, declareAttributes, mapError_bind, hinit]
    dsimp only [AttributeDecl.spanless, Declarator.spanless]
    rw [Ty.ofWritten_spanless, redeclared_spanless d.name d.span]
    exact congrArg (_ >>= ·) (funext ih)

private theorem paramTypes_spanless (ps : List Param) :
    paramTypes (ps.map Param.spanless) = paramTypes ps := by
  simp [paramTypes, Param.spanless]

/-- A member is declared alike, or refused without its place. -/
theorem declareMember_spanless (m : Member) (e : ClassEntry) :
    declareMember m.spanless e = (declareMember m e).mapError Violation.spanless := by
  match m with
  | .attribute decl span => exact declareAttributes_spanless decl decl.declarators e
  | .method decl span =>
    dsimp only [Member.spanless, declareMember, MethodDecl.spanless]
    rw [Ty.map_ofWritten_spanless, paramTypes_spanless, redeclared_spanless decl.name span]
  | .ctor decl span =>
    dsimp only [Member.spanless, declareMember, CtorDecl.spanless]
    rw [paramTypes_spanless, redeclared_spanless decl.name span]
  | .dtor decl span => exact redeclared_spanless decl.name span _

private theorem declareMembers_spanless (ms : List Member) (e : ClassEntry) :
    declareMembers (ms.map Member.spanless) e =
      (declareMembers ms e).mapError Violation.spanless := by
  induction ms generalizing e with
  | nil => rfl
  | cons m ms ih =>
    rw [List.map_cons, declareMembers, declareMembers, mapError_bind, declareMember_spanless]
    exact congrArg (_ >>= ·) (funext ih)

private theorem declareClass_spanless (known : List String) (c : ClassDecl) :
    declareClass known c.spanless = (declareClass known c).mapError Violation.spanless := by
  unfold declareClass ClassDecl.spanless
  cases c.parent with
  | none => exact declareMembers_spanless _ _
  | some parent =>
    dsimp only [Option.map, Ident.spanless]
    split
    · exact declareMembers_spanless _ _
    · rfl

/-- Classes are declared up to the same one. -/
theorem declareClasses_spanless (known : List String) (cs : List ClassDecl) :
    declareClasses known (cs.map ClassDecl.spanless) =
      (declareClasses known cs).mapError Violation.spanless := by
  induction cs with
  | nil => rfl
  | cons c cs ih =>
    rw [List.map_cons, declareClasses, declareClasses, mapError_bind, declareClass_spanless, ih]
    refine congrArg (_ >>= ·) (funext fun e => ?_)
    rw [mapError_bind]
    rfl

/-- The first class that is declared twice is the same. -/
theorem repeated?_spanless (seen : List String) (cs : List ClassDecl) :
    repeated? seen (cs.map ClassDecl.spanless) =
      (repeated? seen cs).map ClassDecl.spanless := by
  induction cs generalizing seen with
  | nil => rfl
  | cons c cs ih =>
    rw [List.map_cons, repeated?, repeated?]
    change (if seen.contains c.name.name = true then _ else repeated? (c.name.name :: seen) _) = _
    rw [ih]
    split <;> rfl

/-- A method to start with is one wherever it stands. -/
theorem isEntryPoint_spanless (m : Member) : isEntryPoint m.spanless = isEntryPoint m := by
  match m with
  | .method decl span => simp [Member.spanless, isEntryPoint, MethodDecl.spanless]
  | .attribute .. | .ctor .. | .dtor .. => rfl

/-- A program without spans has the same class table, or the same violation without its span. -/
theorem build_spanless (p : Program) :
    build p.spanless = (build p).mapError Violation.spanless := by
  have hknown : (p.classes.map ClassDecl.spanless).map (fun c => c.name.name) =
      p.classes.map fun c => c.name.name := by
    simp [ClassDecl.spanless, Ident.spanless]
  have hentry : ((p.classes.map ClassDecl.spanless).any fun c => c.members.any isEntryPoint) =
      p.classes.any fun c => c.members.any isEntryPoint := by
    simp [ClassDecl.spanless, isEntryPoint_spanless, Function.comp_def]
  rw [build, build, Program.spanless, repeated?_spanless, hknown, hentry]
  cases repeated? [ioClass] p.classes with
  | some c => rfl
  | none =>
    dsimp only [Option.map]
    rw [declareClasses_spanless, mapError_bind]
    rfl

/-- Classes in order are checked alike. -/
theorem checkClasses_spanless (t : ClassTable) (walk : Walk) (cs : List ClassDecl)
    (p : Progress) :
    t.checkClasses walk (cs.map ClassDecl.spanless) p.spanless =
      (t.checkClasses walk cs p).spanless := by
  induction cs generalizing p with
  | nil => rfl
  | cons c cs ih =>
    have hclass : t.checkClass walk c.spanless p.spanless = (t.checkClass walk c p).spanless := by
      rw [checkClass, checkClass, ← Context.members_spanless, ← Progress.note_spanless]
      rfl
    rw [List.map_cons, checkClasses, checkClasses, Progress.settled_spanless, hclass, ih]
    split <;> rfl

/-- The events of a program without spans are those of the program, without spans. -/
theorem traverse_spanless (t : ClassTable) (walk : Walk) (p : Program) :
    t.traverse walk p.spanless = (t.traverse walk p).map Event.spanless :=
  congrArg Progress.events (t.checkClasses_spanless walk p.classes .start)

end ClassTable

/-- The violations among stripped events are the stripped violations. -/
theorem Event.violations_spanless (events : List Event) :
    violations (events.map spanless) = (violations events).map Violation.spanless := by
  have hone : ∀ e : Event, e.spanless.violation? = e.violation?.map Violation.spanless := by
    intro e
    cases e <;> rfl
  rw [violations, violations, List.filterMap_map, List.map_filterMap]
  exact congrArg (List.filterMap · events) (funext hone)

/-- Which violation is kept does not depend on spans. -/
theorem Tracker.best_recordAll_spanless (best : Option Violation) (vs : List Violation) :
    (Tracker.recordAll ⟨best.map Violation.spanless⟩ (vs.map Violation.spanless)).best =
      (Tracker.recordAll ⟨best⟩ vs).best.map Violation.spanless := by
  induction vs generalizing best with
  | nil => rfl
  | cons v vs ih =>
    have haccepts : Tracker.accepts ⟨best.map Violation.spanless⟩ v.spanless =
        Tracker.accepts ⟨best⟩ v := by
      cases best <;> simp [Tracker.accepts]
    rw [List.map_cons, Tracker.recordAll, Tracker.recordAll, List.foldl_cons, List.foldl_cons]
    rw [Tracker.record, Tracker.record, haccepts]
    split
    · exact ih (some v)
    · exact ih best

/-- The violation that is reported is the same one, stripped. -/
theorem Tracker.result_recordAll_spanless (vs : List Violation) :
    (Tracker.empty.recordAll (vs.map Violation.spanless)).result =
      (Tracker.empty.recordAll vs).result.mapError Violation.spanless := by
  have hbest : (Tracker.empty.recordAll (vs.map Violation.spanless)).best =
      (Tracker.empty.recordAll vs).best.map Violation.spanless :=
    Tracker.best_recordAll_spanless none vs
  rw [Tracker.result, Tracker.result, hbest]
  cases (Tracker.empty.recordAll vs).best <;> rfl

/-- A program without spans gets the answer of the program, without its span. -/
theorem Program.check_spanless (p : Program) :
    p.spanless.check = p.check.mapError Violation.spanless := by
  rw [check, check, analyze, analyze, ClassTable.build_spanless]
  cases ClassTable.build p with
  | error v => rfl
  | ok t =>
    change t.judge (t.traverse .untilSettled p.spanless) =
      (t.judge (t.traverse .untilSettled p)).mapError Violation.spanless
    rw [ClassTable.judge, ClassTable.judge, t.traverse_spanless, Event.violations_spanless,
      mapError_bind, Tracker.result_recordAll_spanless]
    cases t.hasEntryPoint <;> rfl

end ClassCheck
