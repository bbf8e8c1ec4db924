import ClassCheck.Proofs.Hierarchy
import ClassCheck.Proofs.Traversal

/-!
# What a check depends on

Of the class table a check sees only which classes there are and what each of them declares,
never the order in which the table holds them. Two contexts agree if they cannot be told apart
in this way; how far their traversals go does not matter to expressions and to the parts of
statements. Neither do the events that came up before: a check adds the same events to any of
them, and leaves the same names behind.
-/

namespace ClassCheck

namespace ClassTable

section

variable {t t' : ClassTable} (h : t.classes = t'.classes)

include h

private theorem contains_congr (name : String) : t.contains name = t'.contains name := by
  rw [← isSome_classes, ← isSome_classes, h]

/-- Tables that hold the same classes find the same attributes. -/
theorem findAttribute?_congr (c name : String) :
    t.findAttribute? c name = t'.findAttribute? c name := by
  apply Option.ext
  rintro ⟨owner, info⟩
  rw [findAttribute?_eq_some_iff, findAttribute?_eq_some_iff, h]

/-- They find the same methods. -/
theorem findMethod?_congr (c name : String) : t.findMethod? c name = t'.findMethod? c name := by
  apply Option.ext
  rintro ⟨owner, signature⟩
  rw [findMethod?_eq_some_iff, findMethod?_eq_some_iff, h]

/-- They have the same subclasses. -/
theorem isSubclass_congr (sub sup : String) : t.isSubclass sub sup = t'.isSubclass sub sup := by
  rw [Bool.eq_iff_iff, isSubclass_iff, isSubclass_iff, h]

end

/-- The constructor of a class is the one it declares under its own name. -/
theorem ctor?_eq_bind (t : ClassTable) (c : String) :
    t.ctor? c = (t.classes c).bind ClassView.ctor := by
  unfold ctor? classes
  cases hg : t.get? c with
  | none => rfl
  | some e =>
    rw [Option.map_some, Option.bind_some, Option.bind_some, ClassEntry.view, name_of_get? hg]

section

variable {t t' : ClassTable} (h : t.classes = t'.classes)

include h

/-- Tables that hold the same classes find the same types compatible. -/
theorem compatible_congr (expected : Ty) (actual : ExprTy) :
    t.compatible expected actual = t'.compatible expected actual := by
  unfold compatible
  cases actual with
  | known actual =>
    cases expected <;> simp only [bindsReference, isAssignable, isSubclass_congr h]
  | _ => rfl

private theorem argumentsFit_congr (params : List (String × Ty)) (args : List ExprTy) :
    t.argumentsFit params args = t'.argumentsFit params args := by
  simp only [argumentsFit, compatible_congr h]

end

end ClassTable

namespace Context

/-- Two contexts cannot be told apart by a check: they are for the same kind of member of the
same class, and name the same classes with what these declare. -/
structure Agrees (ctx ctx' : Context) : Prop where
  /-- The classes and what they declare. -/
  classes : ctx.table.classes = ctx'.table.classes
  /-- The class of the member. -/
  className : ctx.className = ctx'.className
  /-- Whether the member belongs to the class itself. -/
  isStatic : ctx.isStatic = ctx'.isStatic
  /-- Whether the member is a constructor. -/
  inCtor : ctx.inCtor = ctx'.inCtor
  /-- The type of the member's result. -/
  result : ctx.result = ctx'.result

section

variable {ctx ctx' : Context} (h : ctx.Agrees ctx')

include h

/-! ## Expressions -/

private theorem selfType_agrees (e : Expr) : ctx.selfType e = ctx'.selfType e := by
  simp only [selfType, h.isStatic, h.className]

private theorem identType_agrees (scope : Scope) (name : String) (e : Expr) :
    ctx.identType scope name e = ctx'.identType scope name e := by
  simp only [identType, ClassTable.findAttribute?_congr h.classes,
    ClassTable.contains_congr h.classes, h.className]

private theorem receiver?_agrees (access : Expr) (object : ExprTy) :
    ctx.receiver? access object = ctx'.receiver? access object := by
  unfold receiver?
  split <;> simp only [ClassTable.contains_congr h.classes]

private theorem attribute?_agrees (access : Expr) (name : String) (object : ExprTy) :
    ctx.attribute? access name object = ctx'.attribute? access name object := by
  simp only [attribute?, receiver?_agrees h, ClassTable.findAttribute?_congr h.classes]

private theorem method?_agrees (call : Expr) (name : String) (object : ExprTy) :
    ctx.method? call name object = ctx'.method? call name object := by
  simp only [method?, receiver?_agrees h, ClassTable.findMethod?_congr h.classes]

private theorem callResult_agrees (call : Expr) (signature : Option Signature)
    (args : List ExprTy) :
    ctx.callResult call signature args = ctx'.callResult call signature args := by
  cases signature with
  | none => rfl
  | some signature => simp only [callResult, ClassTable.argumentsFit_congr h.classes]

private theorem demandClass_agrees (className : String) (e : Expr) :
    ctx.demandClass className e = ctx'.demandClass className e := by
  simp only [demandClass, ClassTable.contains_congr h.classes]

private theorem createResult_agrees (e : Expr) (className : String) (args : List ExprTy) :
    ctx.createResult e className args = ctx'.createResult e className args := by
  simp only [createResult, ClassTable.contains_congr h.classes, ClassTable.ctor?_eq_bind,
    h.classes, ClassTable.argumentsFit_congr h.classes]

end

mutual

/-- An expression is checked alike in contexts that agree. -/
theorem exprType_agrees {ctx ctx' : Context} (h : ctx.Agrees ctx') (scope : Scope) (e : Expr) :
    ctx.exprType scope e = ctx'.exprType scope e := by
  cases e with
  | int _ _ | float _ _ | bool _ _ | string _ _ | nil _ => simp only [exprType]
  | self span => simp only [exprType, selfType_agrees h]
  | ident name span => simp only [exprType, identType_agrees h]
  | paren inner span =>
    simp only [exprType]
    exact exprType_agrees h scope inner
  | binary op left right span =>
    simp only [exprType, exprType_agrees h scope left, exprType_agrees h scope right]
  | unary op operand span => simp only [exprType, exprType_agrees h scope operand]
  | index object position span =>
    simp only [exprType, exprType_agrees h scope object, exprType_agrees h scope position]
  | field object name span =>
    simp only [exprType, exprType_agrees h scope object, attribute?_agrees h]
  | call receiver method args span =>
    simp only [exprType, exprType_agrees h scope receiver, method?_agrees h,
      valueTypes_agrees h scope args, callResult_agrees h]
  | create className args span =>
    simp only [exprType, demandClass_agrees h, valueTypes_agrees h scope args,
      createResult_agrees h]
  | array elements span => simp only [exprType, valueTypes_agrees h scope elements]

private theorem valueTypes_agrees {ctx ctx' : Context} (h : ctx.Agrees ctx') (scope : Scope)
    (es : List Expr) : ctx.valueTypes scope es = ctx'.valueTypes scope es := by
  cases es with
  | nil => simp only [valueTypes]
  | cons e es =>
    simp only [valueTypes, exprType_agrees h scope e, valueTypes_agrees h scope es]

end

end Context

/-! ## Events that came before -/

namespace Progress

/-- The same progress, had these events come up before all others. -/
def after (p : Progress) (before : List Event) : Progress :=
  { p with events := before ++ p.events }

section

variable (p : Progress) (before : List Event)

/-- Nothing need have come up before. -/
@[simp] theorem after_nil : p.after [] = p := rfl

@[simp] private theorem after_scope : (p.after before).scope = p.scope := rfl

@[simp] private theorem after_assigned : (p.after before).assigned = p.assigned := rfl

/-- Events are added to those that came up before. -/
@[simp] theorem absorb_after {α : Type} (c : Checked α) :
    (p.after before).absorb c = (p.absorb c).after before := by
  simp [absorb, after]

@[simp] private theorem note_after (event : Event) :
    (p.after before).note event = (p.note event).after before := absorb_after _ _ _

@[simp] private theorem report_after (v : Violation) :
    (p.after before).report v = (p.report v).after before := absorb_after _ _ _

@[simp] private theorem demand_after (holds : Bool) (v : Violation) :
    (p.after before).demand holds v = (p.demand holds v).after before := by
  cases holds with
  | true => rfl
  | false => exact report_after _ _ _

@[simp] private theorem inScope_after (f : Scope → Scope) :
    (p.after before).inScope f = (p.inScope f).after before := rfl

/-- Whether a name can be declared does not depend on the events before. -/
@[simp] theorem define_after (b : Binding) (span : Option Span) :
    (p.after before).define b span = (p.define b span).after before := by
  unfold define
  rw [after_scope]
  cases p.scope.define? b with
  | some scope => rfl
  | none => exact note_after _ _ _

end

end Progress

namespace Context

section

variable {ctx ctx' : Context} (h : ctx.Agrees ctx') (before : List Event)

include h

/-! ## Parts of statements -/

private theorem valueType_agrees (scope : Scope) (e : Expr) :
    ctx.valueType scope e = ctx'.valueType scope e := by
  simp only [valueType, exprType_agrees h]

private theorem demandType_agrees (type : WrittenType) :
    ctx.demandType type = ctx'.demandType type := by
  simp only [demandType, ClassTable.contains_congr h.classes]

private theorem initializer_agrees (scope : Scope) (isFinal : Bool) (declared : Ty) (init : Expr)
    (blame : Rule → Violation) :
    ctx.initializer scope isFinal declared init blame =
      ctx'.initializer scope isFinal declared init blame := by
  simp only [initializer, valueType_agrees h, ClassTable.compatible_congr h.classes]

private theorem localInit_after (isFinal : Bool) (declared : Ty) (stmt : Stmt) (d : Declarator)
    (p : Progress) :
    ctx.localInit isFinal declared stmt d (p.after before) =
      (ctx'.localInit isFinal declared stmt d p).after before := by
  unfold localInit
  cases d.init with
  | some init =>
    dsimp only
    rw [Progress.after_scope, initializer_agrees h, Progress.absorb_after]
  | none => rfl

/-- Local names are declared alike after any events. -/
theorem declareLocals_after (isFinal : Bool) (declared : Ty) (stmt : Stmt) (ds : List Declarator)
    (p : Progress) :
    ctx.declareLocals isFinal declared stmt ds (p.after before) =
      (ctx'.declareLocals isFinal declared stmt ds p).after before := by
  induction ds generalizing p with
  | nil => rfl
  | cons d ds ih =>
    rw [declareLocals, declareLocals, Progress.after_scope, localInit_after h]
    split
    · exact Progress.report_after _ _ _
    · dsimp only
      rw [Progress.define_after, ih]

private theorem writeAttribute_after (stmt : Stmt) (object : Expr) (name owner : String)
    (info : AttributeInfo) (p : Progress) :
    ctx.writeAttribute stmt object name owner info (p.after before) =
      (ctx'.writeAttribute stmt object name owner info p).after before := by
  unfold writeAttribute mayInitialize
  rw [h.inCtor, h.className, Progress.after_assigned]
  split
  · split
    · rfl
    · exact Progress.report_after _ _ _
  · rfl

private theorem writeName_after (stmt : Stmt) (name : String) (span : Span) (p : Progress) :
    ctx.writeName stmt name span (p.after before) =
      ((ctx'.writeName stmt name span p).1, (ctx'.writeName stmt name span p).2.after before) := by
  unfold writeName
  rw [Progress.after_scope, ClassTable.findAttribute?_congr h.classes, h.className,
    ClassTable.contains_congr h.classes]
  cases p.scope.lookup? name with
  | some b =>
    dsimp only
    split
    · rfl
    · rw [Progress.report_after]
  | none =>
    cases ctx'.table.findAttribute? ctx'.className name with
    | some found =>
      dsimp only
      rw [Progress.demand_after]
    | none =>
      dsimp only
      split <;> rw [Progress.report_after]

/-- A place to write to is found alike after any events. -/
theorem target_after (stmt : Stmt) (place : Expr) (p : Progress) :
    ctx.target stmt place (p.after before) =
      ((ctx'.target stmt place p).1, (ctx'.target stmt place p).2.after before) := by
  cases place with
  | ident name span => exact writeName_after h before stmt name span p
  | field object name span =>
    simp only [target, withValue, Progress.after_scope, valueType_agrees h, attribute?_agrees h,
      Progress.absorb_after]
    split
    · rw [writeAttribute_after h]
    · rfl
  | _ => simp only [target, withValue, Progress.after_scope, valueType_agrees h,
      Progress.absorb_after]

/-- An assignment is checked alike after any events. -/
theorem assignment_after (place value : Expr) (stmt : Stmt) (p : Progress) :
    ctx.assignment place value stmt (p.after before) =
      (ctx'.assignment place value stmt p).after before := by
  simp only [assignment, withValue, Progress.after_scope, valueType_agrees h,
    Progress.absorb_after, target_after h, ClassTable.compatible_congr h.classes]
  rcases ctx'.target stmt place (p.absorb (ctx'.valueType p.scope value)) with ⟨type, q⟩
  cases type with
  | known expected => exact Progress.demand_after _ _ _ _
  | _ => rfl

/-- A condition is checked alike after any events. -/
theorem condition_after (e : Expr) (stmt : Stmt) (p : Progress) :
    ctx.condition e stmt (p.after before) = (ctx'.condition e stmt p).after before := by
  simp only [condition, withValue, Progress.after_scope, valueType_agrees h,
    Progress.absorb_after, Progress.demand_after]

private theorem counter_after (id : Ident) (stmt : Stmt) (p : Progress) :
    ctx.counter id stmt (p.after before) = (ctx'.counter id stmt p).after before := by
  unfold counter counter?
  rw [Progress.after_scope, ClassTable.findAttribute?_congr h.classes, h.className]
  split
  · rw [Progress.demand_after, Progress.demand_after]
  · exact Progress.define_after _ _ _ _

private theorem bounds_after (first last : Expr) (stmt : Stmt) (p : Progress) :
    ctx.bounds first last stmt (p.after before) =
      (ctx'.bounds first last stmt p).after before := by
  simp only [bounds, withValue, Progress.after_scope, valueType_agrees h,
    Progress.absorb_after, Progress.demand_after]

/-- The head of a loop is checked alike after any events. -/
theorem loopHead_after (id : Ident) (first last : Expr) (stmt : Stmt) (p : Progress) :
    ctx.loopHead id first last stmt (p.after before) =
      (ctx'.loopHead id first last stmt p).after before := by
  rw [loopHead, loopHead, Progress.inScope_after, counter_after h, bounds_after h]

/-- A return is checked alike after any events. -/
theorem returned_after (value : Option Expr) (stmt : Stmt) (p : Progress) :
    ctx.returned value stmt (p.after before) = (ctx'.returned value stmt p).after before := by
  cases value with
  | none =>
    rw [returned, returned, h.result]
    exact Progress.demand_after _ _ _ _
  | some e =>
    simp only [returned, withValue, Progress.after_scope, valueType_agrees h,
      Progress.absorb_after, Progress.demand_after, h.result,
      ClassTable.compatible_congr h.classes]

/-- Initial values of attributes are checked alike after any events. -/
theorem attributeInits_after (decl : AttributeDecl) (ds : List Declarator) (p : Progress) :
    ctx.attributeInits decl ds (p.after before) =
      (ctx'.attributeInits decl ds p).after before := by
  induction ds generalizing p with
  | nil => rfl
  | cons d ds ih =>
    rw [attributeInits, attributeInits]
    cases d.init with
    | some init =>
      dsimp only
      rw [Progress.after_scope, initializer_agrees h, Progress.absorb_after, ih]
    | none => exact ih p

/-- Parameters are declared alike after any events. -/
theorem declareParams_after (params : List Param) (p : Progress) :
    ctx.declareParams params (p.after before) = (ctx'.declareParams params p).after before := by
  induction params generalizing p with
  | nil => rfl
  | cons param params ih =>
    rw [declareParams, declareParams, demandType_agrees h, Progress.absorb_after,
      Progress.after_scope]
    split
    · rename_i scope _
      exact ih { p.absorb (ctx'.demandType param.type) with scope := scope }
    · rw [Progress.report_after, ih]

end

/-! ## Statements and members of an exhaustive traversal -/

/-- An exhaustive traversal never halts. -/
theorem halts_of_exhaustive {ctx : Context} (hw : ctx.walk = .exhaustive) (p : Progress) :
    ctx.halts p = false := by
  simp [halts, hw]

mutual

/-- A statement adds the same events to any that came before, and leaves the same names behind. -/
theorem statement_after {ctx ctx' : Context} (h : ctx.Agrees ctx')
    (hw : ctx.walk = .exhaustive) (hw' : ctx'.walk = .exhaustive) (before : List Event)
    (s : Stmt) (p : Progress) :
    ctx.statement s (p.after before) = (ctx'.statement s p).after before := by
  have hh := halts_of_exhaustive hw (p.after before)
  have hh' := halts_of_exhaustive hw' p
  cases s with
  | declare isFinal type ds span =>
    rw [statement_declare hh, statement_declare hh', demandType_agrees h,
      Progress.absorb_after, declareLocals_after h]
  | assign place value span =>
    rw [statement_assign hh, statement_assign hh', assignment_after h]
  | ifThen cond thenBranch span =>
    rw [statement_ifThen hh, statement_ifThen hh', condition_after h,
      nested_after h hw hw' before thenBranch]
  | ifElse cond thenBranch elseBranch span =>
    rw [statement_ifElse hh, statement_ifElse hh', condition_after h,
      nested_after h hw hw' before thenBranch, nested_after h hw hw' before elseBranch]
  | loop id first last direction body span =>
    rw [statement_loop hh, statement_loop hh', loopHead_after h, Progress.inScope_after,
      nested_after h hw hw' before body, Progress.inScope_after, Progress.inScope_after]
  | breakLoop span =>
    rw [statement_breakLoop hh, statement_breakLoop hh', Progress.demand_after,
      Progress.after_scope]
  | continueLoop span =>
    rw [statement_continueLoop hh, statement_continueLoop hh', Progress.demand_after,
      Progress.after_scope]
  | returnValue value span =>
    rw [statement_returnValue hh, statement_returnValue hh', returned_after h]
  | call invocation span =>
    rw [statement_call hh, statement_call hh', Progress.absorb_after, Progress.after_scope,
      exprType_agrees h]
  | block stmts span =>
    rw [statement_block hh, statement_block hh', Progress.inScope_after,
      statements_after h hw hw' before stmts, Progress.inScope_after]
termination_by (sizeOf s, 0)

private theorem nested_after {ctx ctx' : Context} (h : ctx.Agrees ctx')
    (hw : ctx.walk = .exhaustive) (hw' : ctx'.walk = .exhaustive) (before : List Event)
    (s : Stmt) (p : Progress) :
    ctx.nested s (p.after before) = (ctx'.nested s p).after before := by
  rw [nested, nested, Progress.inScope_after, statement_after h hw hw' before s,
    Progress.inScope_after]
termination_by (sizeOf s, 1)

/-- Statements of an exhaustive traversal are checked alike after any events. -/
theorem statements_after {ctx ctx' : Context} (h : ctx.Agrees ctx')
    (hw : ctx.walk = .exhaustive) (hw' : ctx'.walk = .exhaustive) (before : List Event)
    (ss : List Stmt) (p : Progress) :
    ctx.statements ss (p.after before) = (ctx'.statements ss p).after before := by
  cases ss with
  | nil => rw [statements_nil, statements_nil]
  | cons s ss =>
    rw [statements_cons, statements_cons, statement_after h hw hw' before s,
      statements_after h hw hw' before ss]
termination_by (sizeOf ss, 0)

end

/-- Contexts that cannot be told apart between members cannot be told apart in one. -/
theorem Agrees.inMember {ctx ctx' : Context} (h : ctx.Agrees ctx') (m : Member) :
    (ctx.inMember m).Agrees (ctx'.inMember m) := by
  cases m <;> exact ⟨h.classes, h.className, rfl, rfl, rfl⟩

section

variable {ctx ctx' : Context} (h : ctx.Agrees ctx') (hw : ctx.walk = .exhaustive)
  (hw' : ctx'.walk = .exhaustive) (before : List Event)

include h hw hw'

private theorem body_after (params : List Param) (b : Block) (p : Progress) :
    ctx.body params b (p.after before) = (ctx'.body params b p).after before := by
  rw [body, body, Progress.inScope_after, declareParams_after h,
    statements_after h hw hw' before, Progress.inScope_after]

/-- A member adds the same events to any that came before. -/
theorem member_after (m : Member) (p : Progress) :
    ctx.member m (p.after before) = (ctx'.member m p).after before := by
  have hclear : { p.after before with assigned := [] } =
      Progress.after { p with assigned := [] } before := rfl
  have hctx := h.inMember m
  have hin : (ctx.inMember m).walk = .exhaustive := (ctx.inMember_walk m).trans hw
  have hin' : (ctx'.inMember m).walk = .exhaustive := (ctx'.inMember_walk m).trans hw'
  match m with
  | .attribute decl span =>
    simp only [member, hclear, demandType_agrees hctx, Progress.absorb_after,
      attributeInits_after hctx]
  | .method decl span =>
    rw [member, member]
    refine (congrArg _ ?_).trans (body_after hctx hin hin' before decl.params decl.body _)
    cases decl.result with
    | some type =>
      dsimp only
      rw [hclear, demandType_agrees h, Progress.absorb_after]
    | none => rfl
  | .ctor decl span =>
    rw [member, member]
    refine (congrArg _ ?_).trans (body_after hctx hin hin' before decl.params decl.body _)
    rw [hclear, h.className, Progress.demand_after]
  | .dtor decl span =>
    rw [member, member]
    refine (congrArg _ ?_).trans (body_after hctx hin hin' before [] decl.body _)
    rw [hclear, h.className, Progress.demand_after]

end

end Context

end ClassCheck
