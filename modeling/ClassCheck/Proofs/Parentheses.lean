import ClassCheck.Proofs.LayoutChecking
import ClassCheck.Proofs.TableStatics
import ClassCheck.Proofs.Wording

/-!
# Parentheses never influence the check

Parentheses are nodes of the tree, and whatever looks at the form of an expression could stumble
over them: where a class stands before a dot, where a result is missing, where the running object
is meant or an initial value has to be constant. Nothing does. A program without its parentheses
has the same class table, and breaks the same rules in the same order. Only the whole left side
of an assignment is left as it is, since in parentheses it would be no place.
-/

namespace ClassCheck

/-! ## Trees without parentheses -/

namespace Expr

mutual

/-- The expression without parentheses. -/
def unwrapped : Expr → Expr
  | .int value span => .int value span
  | .float value span => .float value span
  | .bool value span => .bool value span
  | .string value span => .string value span
  | .nil span => .nil span
  | .self span => .self span
  | .ident name span => .ident name span
  | .binary op left right span => .binary op left.unwrapped right.unwrapped span
  | .unary op operand span => .unary op operand.unwrapped span
  | .field object name span => .field object.unwrapped name span
  | .call receiver method args span => .call receiver.unwrapped method (unwrappedAll args) span
  | .index object position span => .index object.unwrapped position.unwrapped span
  | .create className args span => .create className (unwrappedAll args) span
  | .array elements span => .array (unwrappedAll elements) span
  | .paren inner _ => inner.unwrapped

/-- The expressions without parentheses. -/
def unwrappedAll : List Expr → List Expr
  | [] => []
  | e :: es => e.unwrapped :: unwrappedAll es

end

/-- The expression without parentheses, except for a pair around the whole. -/
def unwrappedInside : Expr → Expr
  | .paren inner span => .paren inner.unwrapped span
  | e => e.unwrapped

end Expr

/-- The declared name with its initial value without parentheses. -/
def Declarator.unwrapped (d : Declarator) : Declarator :=
  { d with init := d.init.map Expr.unwrapped }

namespace Stmt

mutual

/-- The statement without parentheses, except for a pair around a whole left side. -/
def unwrapped : Stmt → Stmt
  | .declare isFinal type ds span =>
    .declare isFinal type (ds.map Declarator.unwrapped) span
  | .assign target value span => .assign target.unwrappedInside value.unwrapped span
  | .ifThen condition thenBranch span => .ifThen condition.unwrapped thenBranch.unwrapped span
  | .ifElse condition thenBranch elseBranch span =>
    .ifElse condition.unwrapped thenBranch.unwrapped elseBranch.unwrapped span
  | .loop counter first last direction body span =>
    .loop counter first.unwrapped last.unwrapped direction body.unwrapped span
  | .breakLoop span => .breakLoop span
  | .continueLoop span => .continueLoop span
  | .returnValue value span => .returnValue (value.map Expr.unwrapped) span
  | .call invocation span => .call invocation.unwrapped span
  | .block stmts span => .block (unwrappedAll stmts) span

/-- The statements without parentheses, except for pairs around whole left sides. -/
def unwrappedAll : List Stmt → List Stmt
  | [] => []
  | s :: ss => s.unwrapped :: unwrappedAll ss

end

end Stmt

/-- The body without parentheses. -/
def Block.unwrapped (b : Block) : Block := { b with stmts := Stmt.unwrappedAll b.stmts }

/-- The attributes with their initial values without parentheses. -/
def AttributeDecl.unwrapped (a : AttributeDecl) : AttributeDecl :=
  { a with declarators := a.declarators.map Declarator.unwrapped }

/-- The member without parentheses. -/
def Member.unwrapped : Member → Member
  | .attribute decl span => .attribute decl.unwrapped span
  | .method decl span => .method { decl with body := decl.body.unwrapped } span
  | .ctor decl span => .ctor { decl with body := decl.body.unwrapped } span
  | .dtor decl span => .dtor { decl with body := decl.body.unwrapped } span

/-- The class without parentheses. -/
def ClassDecl.unwrapped (c : ClassDecl) : ClassDecl :=
  { c with members := c.members.map Member.unwrapped }

/-- The program without parentheses, except for pairs around whole left sides. -/
def Program.unwrapped (p : Program) : Program :=
  { p with classes := p.classes.map ClassDecl.unwrapped }

/-! ## Expressions -/

namespace Expr

/-- Whether an expression is the running object does not depend on parentheses. -/
theorem isSelf_unwrapped (e : Expr) : e.unwrapped.isSelf = e.isSelf := by
  match e with
  | .paren inner _ => exact inner.isSelf_unwrapped
  | .int .. | .float .. | .bool .. | .string .. | .nil _ | .self _ | .ident .. | .binary ..
  | .unary .. | .field .. | .call .. | .index .. | .create .. | .array .. => rfl

mutual

/-- The first part that is not constant is found without parentheses. -/
theorem firstNonConstant?_unwrapped (e : Expr) :
    e.unwrapped.firstNonConstant? = e.firstNonConstant?.map unwrapped := by
  match e with
  | .int .. | .float .. | .bool .. | .string .. | .nil _ | .self _ | .ident .. | .field ..
  | .call .. | .index .. | .create .. => rfl
  | .binary _ left right _ =>
    rw [unwrapped, firstNonConstant?, firstNonConstant?, left.firstNonConstant?_unwrapped,
      right.firstNonConstant?_unwrapped, Option.map_or]
  | .unary _ operand _ => exact operand.firstNonConstant?_unwrapped
  | .paren inner _ => exact inner.firstNonConstant?_unwrapped
  | .array elements _ => exact firstNonConstantOf?_unwrapped elements

private theorem firstNonConstantOf?_unwrapped (es : List Expr) :
    firstNonConstantOf? (unwrappedAll es) = (firstNonConstantOf? es).map unwrapped := by
  match es with
  | [] => rfl
  | e :: es =>
    rw [unwrappedAll, firstNonConstantOf?, firstNonConstantOf?, e.firstNonConstant?_unwrapped,
      firstNonConstantOf?_unwrapped es, Option.map_or]

end

/-- Whether an expression is constant does not depend on parentheses. -/
theorem isConstant_unwrapped (e : Expr) : e.unwrapped.isConstant = e.isConstant := by
  rw [isConstant, firstNonConstant?_unwrapped, Option.isNone_map, isConstant]

end Expr

namespace Context

open Checked

mutual

/-- An expression without parentheses has the same type and breaks the same rules. -/
theorem exprType_unwrapped (ctx : Context) (scope : Scope) (e : Expr) :
    (ctx.exprType scope e.unwrapped).Alike (ctx.exprType scope e) := by
  match e with
  | .int .. | .float .. | .bool .. | .string .. | .nil _ | .self _ | .ident .. =>
    exact .refl _
  | .paren inner _ =>
    -- A check goes straight to what is inside, so this case needs no lemma of its own.
    simpa only [Expr.unwrapped, exprType] using exprType_unwrapped ctx scope inner
  | .binary op left right span =>
    simp only [Expr.unwrapped, exprType]
    refine ((exprType_unwrapped ctx scope left).demandValue _ _).bind fun a => ?_
    refine ((exprType_unwrapped ctx scope right).demandValue _ _).bind fun b => ?_
    exact alike_orMismatch _ _ _
  | .unary op operand span =>
    simp only [Expr.unwrapped, exprType]
    refine ((exprType_unwrapped ctx scope operand).demandValue _ _).bind fun a => ?_
    exact alike_orMismatch _ _ _
  | .index object position span =>
    simp only [Expr.unwrapped, exprType]
    refine ((exprType_unwrapped ctx scope object).demandValue _ _).bind fun a => ?_
    refine ((exprType_unwrapped ctx scope position).demandValue _ _).bind fun i => ?_
    exact alike_orMismatch _ _ _
  | .field object name span =>
    simp only [Expr.unwrapped, exprType]
    refine ((exprType_unwrapped ctx scope object).demandValue _ _).bind fun a => ?_
    exact (ctx.alike_attribute? _ _ name a).bind fun found => .refl _
  | .call receiver method args span =>
    simp only [Expr.unwrapped, exprType]
    refine ((exprType_unwrapped ctx scope receiver).demandValue _ _).bind fun a => ?_
    refine (ctx.alike_method? _ _ method a).bind fun signature => ?_
    refine (valueTypes_unwrapped ctx scope args).bind fun types => ?_
    exact ctx.alike_callResult _ _ signature types
  | .create className args span =>
    simp only [Expr.unwrapped, exprType]
    refine (ctx.alike_demandClass className _ _).bind fun _ => ?_
    refine (valueTypes_unwrapped ctx scope args).bind fun types => ?_
    exact ctx.alike_createResult _ _ className types
  | .array elements span =>
    simp only [Expr.unwrapped, exprType]
    exact (valueTypes_unwrapped ctx scope elements).bind fun types => alike_arrayResult _ _ types

private theorem valueTypes_unwrapped (ctx : Context) (scope : Scope) (es : List Expr) :
    (ctx.valueTypes scope (Expr.unwrappedAll es)).Alike (ctx.valueTypes scope es) := by
  match es with
  | [] => exact .refl _
  | e :: es =>
    simp only [Expr.unwrappedAll, valueTypes]
    refine ((exprType_unwrapped ctx scope e).demandValue _ _).bind fun type => ?_
    exact (valueTypes_unwrapped ctx scope es).bind fun types => .refl _

end

end Context

/-- No check can tell an expression from what it is without parentheses. -/
theorem Expr.unwrapped_alike (e : Expr) : e.unwrapped.Alike e :=
  ⟨fun ctx scope => ctx.exprType_unwrapped scope e, e.isSelf_unwrapped, e.isConstant_unwrapped⟩

/-- Parentheses inside of a left side make no difference. -/
theorem Expr.unwrappedInside_alike (e : Expr) : e.unwrappedInside.Alike e := by
  cases e with
  | paren inner span =>
    have hinner := inner.unwrapped_alike
    refine ⟨fun ctx scope => ?_, hinner.isSelf, hinner.isConstant⟩
    simpa only [unwrappedInside, Context.exprType] using hinner.types ctx scope
  | _ => exact unwrapped_alike _

/-! ## Statements -/

namespace Context

variable (ctx : Context) {p q : Progress} (hp : p.Alike q)

include hp

private theorem localInit_unwrapped (isFinal : Bool) (declared : Ty) (stmt stmt' : Stmt)
    (d : Declarator) :
    (ctx.localInit isFinal declared stmt d.unwrapped p).Alike
      (ctx.localInit isFinal declared stmt' d q) := by
  unfold localInit Declarator.unwrapped
  cases d.init with
  | none => exact hp
  | some init =>
    rw [hp.scope]
    exact hp.absorb (ctx.alike_initializer _ _ _ init.unwrapped_alike fun _ => rfl)

/-- Local names are declared alike. -/
theorem declareLocals_unwrapped (isFinal : Bool) (declared : Ty) (stmt stmt' : Stmt)
    (ds : List Declarator) :
    (ctx.declareLocals isFinal declared stmt (ds.map Declarator.unwrapped) p).Alike
      (ctx.declareLocals isFinal declared stmt' ds q) := by
  induction ds generalizing p q with
  | nil => exact hp
  | cons d ds ih =>
    have hname : d.unwrapped.name = d.name := rfl
    have hinit : d.unwrapped.init.isSome = d.init.isSome := Option.isSome_map
    rw [List.map_cons, declareLocals, declareLocals, hp.scope, hname, hinit]
    by_cases hknown : (q.scope.lookupLocal? d.name).isSome = true
    · rw [if_pos hknown, if_pos hknown]
      exact hp.report rfl
    · rw [if_neg hknown, if_neg hknown]
      exact ih ((ctx.localInit_unwrapped hp isFinal declared stmt stmt' d).define _ _)

/-- A place to write to is found alike. -/
theorem target_unwrapped (stmt stmt' : Stmt) (place : Expr) :
    AlikeTargets (ctx.target stmt place.unwrappedInside p) (ctx.target stmt' place q) := by
  have hother : AlikeTargets (ctx.withValue place.unwrappedInside p Prod.mk)
      (ctx.withValue place q Prod.mk) :=
    ctx.alike_withValue hp place.unwrappedInside_alike fun _ _ _ hp => ⟨rfl, hp⟩
  cases place with
  | ident name span => exact ctx.alike_writeName hp stmt stmt' name span span
  | field object name span =>
    exact ctx.alike_target_field hp stmt stmt' object.unwrapped_alike name span span
  | _ => exact hother

omit hp

mutual

/-- A statement without parentheses breaks the same rules. -/
theorem statement_unwrapped (s : Stmt) {p q : Progress} (hp : p.Alike q) :
    (ctx.statement s.unwrapped p).Alike (ctx.statement s q) := by
  -- Both traversals stop before the same statement, since only rules tell whether to go on.
  have hhalts := hp.halts ctx
  cases hq : ctx.halts q with
  | true =>
    rw [statement_of_halts hq, statement_of_halts (hhalts.trans hq)]
    exact hp
  | false =>
    rw [hq] at hhalts
    cases s with
    | declare isFinal type ds span =>
      rw [Stmt.unwrapped, statement_declare hhalts, statement_declare hq]
      exact ctx.declareLocals_unwrapped (hp.absorb (.refl _)) _ _ _ _ ds
    | assign place value span =>
      rw [Stmt.unwrapped, statement_assign hhalts, statement_assign hq]
      exact ctx.alike_assignment hp _ _ value.unwrapped_alike fun p q hp =>
        ctx.target_unwrapped hp _ _ place
    | ifThen cond thenBranch span =>
      rw [Stmt.unwrapped, statement_ifThen hhalts, statement_ifThen hq]
      exact nested_unwrapped thenBranch (ctx.alike_condition hp _ _ cond.unwrapped_alike)
    | ifElse cond thenBranch elseBranch span =>
      rw [Stmt.unwrapped, statement_ifElse hhalts, statement_ifElse hq]
      exact nested_unwrapped elseBranch
        (nested_unwrapped thenBranch (ctx.alike_condition hp _ _ cond.unwrapped_alike))
    | loop id first last direction body span =>
      rw [Stmt.unwrapped, statement_loop hhalts, statement_loop hq]
      have hhead := ctx.alike_loopHead hp
        (.loop id first.unwrapped last.unwrapped direction body.unwrapped span)
        (.loop id first last direction body span) id first.unwrapped_alike last.unwrapped_alike
      exact ((nested_unwrapped body (hhead.inScope _)).inScope _).inScope _
    | breakLoop span =>
      rw [Stmt.unwrapped, statement_breakLoop hhalts, statement_breakLoop hq, hp.scope]
      exact hp.demand _ rfl
    | continueLoop span =>
      rw [Stmt.unwrapped, statement_continueLoop hhalts, statement_continueLoop hq, hp.scope]
      exact hp.demand _ rfl
    | returnValue value span =>
      rw [Stmt.unwrapped, statement_returnValue hhalts, statement_returnValue hq]
      cases value with
      | none => exact hp.demand _ rfl
      | some e => exact ctx.alike_returned hp _ _ e.unwrapped_alike
    | call invocation span =>
      rw [Stmt.unwrapped, statement_call hhalts, statement_call hq, hp.scope]
      exact hp.absorb (ctx.exprType_unwrapped _ invocation)
    | block stmts span =>
      rw [Stmt.unwrapped, statement_block hhalts, statement_block hq]
      exact (statements_unwrapped stmts (hp.inScope _)).inScope _
termination_by (sizeOf s, 0)

private theorem nested_unwrapped (s : Stmt) {p q : Progress} (hp : p.Alike q) :
    (ctx.nested s.unwrapped p).Alike (ctx.nested s q) := by
  rw [nested, nested]
  exact (statement_unwrapped s (hp.inScope _)).inScope _
termination_by (sizeOf s, 1)

/-- Statements in order are checked alike. -/
theorem statements_unwrapped (ss : List Stmt) {p q : Progress} (hp : p.Alike q) :
    (ctx.statements (Stmt.unwrappedAll ss) p).Alike (ctx.statements ss q) := by
  cases ss with
  | nil =>
    rw [Stmt.unwrappedAll, statements_nil, statements_nil]
    exact hp
  | cons s ss =>
    rw [Stmt.unwrappedAll, statements_cons, statements_cons]
    exact statements_unwrapped ss (statement_unwrapped s hp)
termination_by (sizeOf ss, 0)

end

/-! ## Members and classes -/

include hp

/-- Initial values of attributes are checked alike. -/
theorem attributeInits_unwrapped (decl : AttributeDecl) (ds : List Declarator) :
    (ctx.attributeInits decl.unwrapped (ds.map Declarator.unwrapped) p).Alike
      (ctx.attributeInits decl ds q) := by
  induction ds generalizing p q with
  | nil => exact hp
  | cons d ds ih =>
    rw [List.map_cons, attributeInits, attributeInits]
    refine ih ?_
    unfold Declarator.unwrapped
    cases d.init with
    | none => exact hp
    | some init =>
      rw [hp.scope]
      exact hp.absorb (ctx.alike_initializer _ _ _ init.unwrapped_alike fun _ => rfl)

private theorem alike_declareParams (params : List Param) :
    (ctx.declareParams params p).Alike (ctx.declareParams params q) := by
  induction params generalizing p q with
  | nil => exact hp
  | cons param params ih =>
    rw [declareParams, declareParams]
    refine ih ?_
    have hp' := hp.absorb (.refl (ctx.demandType param.type))
    rw [hp'.scope]
    split
    · exact ⟨rfl, hp'.assigned, hp'.rules⟩
    · exact hp'.report rfl

private theorem body_unwrapped (params : List Param) (b : Block) :
    (ctx.body params b.unwrapped p).Alike (ctx.body params b q) := by
  rw [body, body]
  exact (ctx.statements_unwrapped b.stmts
    (ctx.alike_declareParams (hp.inScope _) params)).inScope _

/-- Members are checked alike without parentheses. -/
theorem member_unwrapped (m : Member) :
    (ctx.member m.unwrapped p).Alike (ctx.member m q) := by
  have hclear : Progress.Alike { p with assigned := [] } { q with assigned := [] } :=
    ⟨hp.scope, rfl, hp.rules⟩
  rcases m with ⟨decl, span⟩ | ⟨decl, span⟩ | ⟨decl, span⟩ | ⟨decl, span⟩
  · rw [Member.unwrapped, member, member]
    exact attributeInits_unwrapped _ (hclear.absorb (.refl _)) decl decl.declarators
  · rw [Member.unwrapped, member, member]
    refine body_unwrapped _ ?_ decl.params decl.body
    dsimp only
    cases decl.result with
    | none => exact hclear
    | some type => exact hclear.absorb (.refl _)
  · rw [Member.unwrapped, member, member]
    refine body_unwrapped _ (hclear.demand _ ?_) decl.params decl.body
    rfl
  · rw [Member.unwrapped, member, member]
    refine body_unwrapped _ (hclear.demand _ ?_) [] decl.body
    rfl

/-- So are members in order. -/
theorem members_unwrapped (ms : List Member) :
    (ctx.members (ms.map Member.unwrapped) p).Alike (ctx.members ms q) := by
  induction ms generalizing p q with
  | nil => exact hp
  | cons m ms ih =>
    rw [List.map_cons, members, members, hp.halts]
    cases ctx.halts q with
    | true => exact hp
    | false => exact ih (ctx.member_unwrapped hp m)

end Context

namespace ClassTable

/-- So are classes in order. -/
theorem checkClasses_unwrapped (t : ClassTable) (walk : Walk) (cs : List ClassDecl)
    {p q : Progress} (hp : p.Alike q) :
    (t.checkClasses walk (cs.map ClassDecl.unwrapped) p).Alike (t.checkClasses walk cs q) := by
  induction cs generalizing p q with
  | nil => exact hp
  | cons c cs ih =>
    rw [List.map_cons, checkClasses, checkClasses, hp.settled]
    split
    · exact hp
    · exact ih (Context.members_unwrapped _ (hp.note _) c.members)

/-- A program without parentheses breaks the same rules in the same order. -/
theorem rules_traverse_unwrapped (t : ClassTable) (walk : Walk) (p : Program) :
    Event.rules (t.traverse walk p.unwrapped) = Event.rules (t.traverse walk p) :=
  (t.checkClasses_unwrapped walk p.classes ⟨rfl, rfl, rfl⟩).rules

/-! ## The class table -/

/-- The names that a member declares stay where they are. -/
theorem sites_unwrapped (className : String) (m : Member) :
    m.unwrapped.sites className = m.sites className := by
  rcases m with ⟨decl, span⟩ | ⟨decl, span⟩ | ⟨decl, span⟩ | ⟨decl, span⟩
  · simp [Member.sites, Member.declarations, Member.spans, Member.unwrapped,
      AttributeDecl.unwrapped, Declarator.unwrapped, Function.comp_def]
  all_goals rfl

private theorem isEntryPoint_unwrapped (m : Member) :
    isEntryPoint m.unwrapped = isEntryPoint m := by
  cases m <;> rfl

/-- A class is entered alike. -/
theorem declareClass_unwrapped (known : List String) (c : ClassDecl) :
    declareClass known c.unwrapped = declareClass known c := by
  have hmembers : ∀ e, declareMembers (c.members.map Member.unwrapped) e =
      declareMembers c.members e := by
    intro e
    rw [declareMembers_eq, declareMembers_eq, List.flatMap_map]
    simp only [sites_unwrapped]
  unfold declareClass ClassDecl.unwrapped
  simp only [hmembers]

private theorem declareClasses_unwrapped (known : List String) (cs : List ClassDecl) :
    declareClasses known (cs.map ClassDecl.unwrapped) = declareClasses known cs := by
  induction cs with
  | nil => rfl
  | cons c cs ih => rw [List.map_cons, declareClasses, declareClasses, declareClass_unwrapped, ih]

private theorem repeated?_unwrapped (seen : List String) (cs : List ClassDecl) :
    repeated? seen (cs.map ClassDecl.unwrapped) =
      (repeated? seen cs).map ClassDecl.unwrapped := by
  induction cs generalizing seen with
  | nil => rfl
  | cons c cs ih =>
    have hname : c.unwrapped.name = c.name := rfl
    rw [List.map_cons, repeated?, repeated?, hname, ih]
    split <;> rfl

/-- A program without parentheses has the same class table, or the same violation instead. -/
theorem build_unwrapped (p : Program) : build p.unwrapped = build p := by
  have hknown : (p.classes.map ClassDecl.unwrapped).map (fun c => c.name.name) =
      p.classes.map fun c => c.name.name := by
    simp [ClassDecl.unwrapped]
  have hentry : ((p.classes.map ClassDecl.unwrapped).any fun c => c.members.any isEntryPoint) =
      p.classes.any fun c => c.members.any isEntryPoint := by
    simp [ClassDecl.unwrapped, isEntryPoint_unwrapped, Function.comp_def]
  rw [build, build, Program.unwrapped, repeated?_unwrapped, hknown, hentry]
  cases repeated? [ioClass] p.classes with
  | some c => rfl
  | none =>
    dsimp only [Option.map]
    rw [declareClasses_unwrapped]

end ClassTable

/-! ## Programs -/

private theorem Violation.rule?_spanless (v : Violation) : v.spanless.rule? = v.rule? := by
  cases v <;> rfl

/-- The rules that events break do not depend on spans. -/
theorem Event.rules_spanless (events : List Event) :
    rules (events.map spanless) = rules events := by
  rw [rules, violations_spanless, List.map_map, rules]
  exact List.map_congr_left fun v _ => v.rule?_spanless

namespace Program

variable {p q : Program} (h : p.spanless.unwrapped = q.spanless.unwrapped)

include h

/-- Programs that differ in parentheses and spans only have the same table, or fail to have one
alike. -/
theorem build_of_unwrapped : (ClassTable.build p).mapError Violation.spanless =
    (ClassTable.build q).mapError Violation.spanless := by
  rw [← ClassTable.build_spanless, ← ClassTable.build_unwrapped, h, ClassTable.build_unwrapped,
    ClassTable.build_spanless]

/-- They break the same rules in the same order. -/
theorem rules_of_unwrapped (t : ClassTable) (walk : Walk) :
    Event.rules (t.traverse walk p) = Event.rules (t.traverse walk q) := by
  have hrules : ∀ r : Program, Event.rules (t.traverse walk r) =
      Event.rules (t.traverse walk r.spanless.unwrapped) := by
    intro r
    rw [t.rules_traverse_unwrapped, t.traverse_spanless, Event.rules_spanless]
  rw [hrules, h, ← hrules]

/-- Programs that differ only in parentheses pass together or break the same rule. -/
theorem check_of_unwrapped :
    p.check.mapError Violation.rule? = q.check.mapError Violation.rule? := by
  have hbuild := build_of_unwrapped h
  cases hp : ClassTable.build p <;> cases hq : ClassTable.build q <;> rw [hp, hq] at hbuild
  case error.error v w =>
    have hrule := congrArg Violation.rule? (Except.error.inj hbuild)
    rw [v.rule?_spanless, w.rule?_spanless] at hrule
    rw [check_of_build_error hp, check_of_build_error hq]
    exact congrArg Except.error hrule
  case ok.ok t u =>
    obtain rfl : t = u := Except.ok.inj hbuild
    rw [check_of_build_ok hp, check_of_build_ok hq]
    exact t.answer_rule? (rules_of_unwrapped h t .exhaustive)
  all_goals cases hbuild

end Program

/-- Parentheses are transparent to the check. Of programs that are the same without parentheses,
wherever their parts stand, the class tables are the same or fail alike, and the traversals break
the same rules in the same order; so both pass, or both fail for the same rule. What is constant
and what may give a final attribute its value is not changed by parentheses either. -/
theorem Program.parentheses_transparent (p q : Program)
    (h : p.spanless.unwrapped = q.spanless.unwrapped) :
    (ClassTable.build p).mapError Violation.spanless =
      (ClassTable.build q).mapError Violation.spanless ∧
    (p.unwrapped = q.unwrapped → ClassTable.build p = ClassTable.build q) ∧
    (∀ (t : ClassTable) (walk : Walk),
      Event.rules (t.traverse walk p) = Event.rules (t.traverse walk q)) ∧
    p.check.mapError Violation.rule? = q.check.mapError Violation.rule? ∧
    ∀ e e' : Expr, e.spanless.unwrapped = e'.spanless.unwrapped → e.isConstant = e'.isConstant ∧
      ∀ (ctx : Context) (progress : Progress) (name owner : String) (info : AttributeInfo),
        ctx.mayInitialize progress e name owner info =
          ctx.mayInitialize progress e' name owner info := by
  refine ⟨build_of_unwrapped h, fun hplaced => ?_, rules_of_unwrapped h, check_of_unwrapped h,
    fun e e' he => ⟨?_, fun ctx progress name owner info => ?_⟩⟩
  · rw [← ClassTable.build_unwrapped, hplaced, ClassTable.build_unwrapped]
  · have hconstant : ∀ e : Expr, e.isConstant = e.spanless.unwrapped.isConstant := by
      intro e
      rw [Expr.isConstant_unwrapped, Expr.isConstant, Expr.isConstant,
        Expr.firstNonConstant?_spanless, Option.isNone_map]
    rw [hconstant, he, ← hconstant]
  · have hself : e.isSelf = e'.isSelf := by
      rw [← e.isSelf_spanless, ← e.spanless.isSelf_unwrapped, he, Expr.isSelf_unwrapped,
        Expr.isSelf_spanless]
    rw [Context.mayInitialize, hself, Context.mayInitialize]

/-- A class with a constant, a final attribute that the constructor sets and a method to start
with, which writes the sum of a number and a truth value; `wrap` is done to many of its parts. -/
def tally (wrap : Expr → Expr) : Program :=
  let three := wrap (.binary .add (wrap (.int 1 ⟨0, 0⟩)) (.int 2 ⟨0, 0⟩) ⟨0, 0⟩)
  let limit := .attribute ⟨false, true, .primitive .int ⟨0, 0⟩,
    [⟨"limit", some three, ⟨0, 0⟩⟩]⟩ ⟨0, 0⟩
  let seed := .attribute ⟨false, true, .primitive .int ⟨0, 0⟩, [⟨"seed", none, ⟨0, 0⟩⟩]⟩ ⟨0, 0⟩
  let sow := .assign (.field (wrap (.self ⟨0, 0⟩)) "seed" ⟨0, 0⟩) three ⟨0, 0⟩
  let write := .call (.call (wrap (.ident "IO" ⟨0, 0⟩)) "writeInt"
    [.binary .add three (wrap (.bool true ⟨0, 0⟩)) ⟨0, 0⟩] ⟨0, 0⟩) ⟨0, 0⟩
  ⟨[⟨⟨"Tally", ⟨0, 0⟩⟩, none, [limit, seed, .ctor ⟨"Tally", [], ⟨[sow], ⟨0, 0⟩⟩⟩ ⟨0, 0⟩,
    .method ⟨true, none, mainName, [], ⟨[write], ⟨0, 0⟩⟩⟩ ⟨0, 0⟩], ⟨0, 0⟩⟩], ⟨0, 0⟩⟩

/-- With two pairs of parentheses around its parts the class breaks the rule that it breaks
without them. -/
theorem tally_parentheses_transparent :
    let wrap : Expr → Expr := fun e => .paren (.paren e ⟨3, 5⟩) ⟨2, 6⟩
    (tally wrap).spanless.unwrapped = (tally id).spanless.unwrapped ∧
      (tally id).check.mapError Violation.rule? = .error (some .mismatchInExpression) ∧
      (tally wrap).check.mapError Violation.rule? = .error (some .mismatchInExpression) ∧
      ∀ t walk, Event.rules (ClassTable.traverse t walk (tally wrap)) =
        Event.rules (t.traverse walk (tally id)) := by
  intro wrap
  have hsame : (tally wrap).spanless.unwrapped = (tally id).spanless.unwrapped := rfl
  have hplain : (tally id).check.mapError Violation.rule? =
      .error (some .mismatchInExpression) := by
    decide +kernel
  obtain ⟨-, -, hrules, hcheck, -⟩ := Program.parentheses_transparent _ _ hsame
  exact ⟨hsame, hplain, hcheck.trans hplain, hrules⟩

end ClassCheck
