import ClassCheck.Checker.Program
import Mathlib.Data.List.Infix

/-!
# The steps of a traversal

A traversal of any kind looks only before a statement, a member or a class whether to go on.
Past that test each statement has one equation, so later proofs take statements apart without
unfolding the check. Three facts hold of every step: how far the traversal goes is of no concern to
expressions and to the parts of a statement that are no statements, no event is ever taken
back, and a traversal that has stopped stays where it is.
-/

namespace ClassCheck

namespace Progress

/-- The events of a check come behind those so far. -/
@[simp] theorem absorb_events {α : Type} (p : Progress) (c : Checked α) :
    (p.absorb c).events = p.events ++ c.events := rfl

@[simp] theorem absorb_scope {α : Type} (p : Progress) (c : Checked α) :
    (p.absorb c).scope = p.scope := rfl

@[simp] theorem absorb_assigned {α : Type} (p : Progress) (c : Checked α) :
    (p.absorb c).assigned = p.assigned := rfl

@[simp] theorem inScope_events (p : Progress) (f : Scope → Scope) :
    (p.inScope f).events = p.events := rfl

@[simp] theorem inScope_scope (p : Progress) (f : Scope → Scope) :
    (p.inScope f).scope = f p.scope := rfl

@[simp] theorem inScope_assigned (p : Progress) (f : Scope → Scope) :
    (p.inScope f).assigned = p.assigned := rfl

/-- What is absorbed comes behind the events so far. -/
theorem absorb_grows {α : Type} (p : Progress) (c : Checked α) :
    p.events <+: (p.absorb c).events := List.prefix_append _ _

private theorem report_grows (p : Progress) (v : Violation) : p.events <+: (p.report v).events :=
  p.absorb_grows _

/-- A demand takes no event back. -/
theorem demand_grows (p : Progress) (holds : Bool) (v : Violation) :
    p.events <+: (p.demand holds v).events := by
  cases holds with
  | true => exact List.prefix_refl _
  | false => exact p.report_grows v

/-- A declaration of a name takes no event back. -/
theorem define_grows (p : Progress) (b : Binding) (span : Option Span) :
    p.events <+: (p.define b span).events := by
  unfold define
  cases p.scope.define? b with
  | some scope => exact List.prefix_refl _
  | none => exact p.absorb_grows _

end Progress

namespace Context

/-! ## Parts of statements -/

private theorem localInit_grows (ctx : Context) (isFinal : Bool) (declared : Ty) (stmt : Stmt)
    (d : Declarator) (p : Progress) :
    p.events <+: (ctx.localInit isFinal declared stmt d p).events := by
  unfold localInit
  cases d.init with
  | some init => exact p.absorb_grows _
  | none => exact List.prefix_refl _

/-- Declarations of local names take no event back. -/
theorem declareLocals_grows (ctx : Context) (isFinal : Bool) (declared : Ty) (stmt : Stmt)
    (ds : List Declarator) (p : Progress) :
    p.events <+: (ctx.declareLocals isFinal declared stmt ds p).events := by
  induction ds generalizing p with
  | nil => exact List.prefix_refl _
  | cons d ds ih =>
    rw [declareLocals]
    split
    · exact p.report_grows _
    · exact (ctx.localInit_grows isFinal declared stmt d p).trans
        ((Progress.define_grows _ _ _).trans (ih _))

/-- Writing to an attribute takes no event back. -/
theorem writeAttribute_grows (ctx : Context) (stmt : Stmt) (object : Expr)
    (name owner : String) (info : AttributeInfo) (p : Progress) :
    p.events <+: (ctx.writeAttribute stmt object name owner info p).events := by
  unfold writeAttribute
  split
  · split
    · exact List.prefix_refl _
    · exact p.report_grows _
  · exact List.prefix_refl _

private theorem writeName_grows (ctx : Context) (stmt : Stmt) (name : String) (span : Span)
    (p : Progress) : p.events <+: (ctx.writeName stmt name span p).2.events := by
  unfold writeName
  cases p.scope.lookup? name with
  | some b =>
    dsimp only
    split
    · exact List.prefix_refl _
    · exact p.report_grows _
  | none =>
    cases ctx.table.findAttribute? ctx.className name with
    | some found => exact p.demand_grows _ _
    | none =>
      dsimp only
      split <;> exact p.report_grows _

/-- Writing to any place takes no event back. -/
theorem target_grows (ctx : Context) (stmt : Stmt) (place : Expr) (p : Progress) :
    p.events <+: (ctx.target stmt place p).2.events := by
  unfold target
  split
  · exact ctx.writeName_grows stmt _ _ p
  · rename_i object name span
    have hvalue := p.absorb_grows (ctx.valueType p.scope object)
    simp only [withValue]
    split
    · exact hvalue.trans ((Progress.absorb_grows _ _).trans
        (ctx.writeAttribute_grows stmt object name _ _ _))
    · exact hvalue.trans (Progress.absorb_grows _ _)
  · exact p.absorb_grows _

/-- An assignment adds at most a violation to what its value and its place add. -/
theorem target_prefix_assignment (ctx : Context) (place value : Expr) (stmt : Stmt)
    (p : Progress) :
    (ctx.target stmt place (p.absorb (ctx.valueType p.scope value))).2.events <+:
      (ctx.assignment place value stmt p).events := by
  simp only [assignment, withValue]
  split
  · rename_i hq
    rw [hq]
    exact Progress.demand_grows _ _ _
  · rename_i hq
    rw [hq]

/-- An assignment takes no event back. -/
theorem assignment_grows (ctx : Context) (place value : Expr) (stmt : Stmt) (p : Progress) :
    p.events <+: (ctx.assignment place value stmt p).events :=
  (p.absorb_grows (ctx.valueType p.scope value)).trans
    ((ctx.target_grows stmt place _).trans (ctx.target_prefix_assignment place value stmt p))

/-- A condition takes no event back. -/
theorem condition_grows (ctx : Context) (e : Expr) (stmt : Stmt) (p : Progress) :
    p.events <+: (ctx.condition e stmt p).events :=
  (p.absorb_grows _).trans (Progress.demand_grows _ _ _)

private theorem counter_grows (ctx : Context) (id : Ident) (stmt : Stmt) (p : Progress) :
    p.events <+: (ctx.counter id stmt p).events := by
  unfold counter
  cases ctx.counter? p.scope id.name with
  | some found => exact (p.demand_grows _ _).trans (Progress.demand_grows _ _ _)
  | none => exact p.define_grows _ _

/-- The bounds of a loop take no event back. -/
theorem bounds_grows (ctx : Context) (first last : Expr) (stmt : Stmt) (p : Progress) :
    p.events <+: (ctx.bounds first last stmt p).events :=
  (p.absorb_grows _).trans ((Progress.absorb_grows _ _).trans (Progress.demand_grows _ _ _))

/-- A return takes no event back. -/
theorem returned_grows (ctx : Context) (value : Option Expr) (stmt : Stmt) (p : Progress) :
    p.events <+: (ctx.returned value stmt p).events := by
  cases value with
  | none => exact p.demand_grows _ _
  | some e => exact (p.absorb_grows _).trans (Progress.demand_grows _ _ _)

/-! ## Statements past the test -/

/-- Check a statement in a frame of its own. -/
def nested (ctx : Context) (s : Stmt) (p : Progress) : Progress :=
  (ctx.statement s (p.inScope .push)).inScope .pop

@[simp] theorem nested_events (ctx : Context) (s : Stmt) (p : Progress) :
    (ctx.nested s p).events = (ctx.statement s (p.inScope .push)).events := rfl

/-- Check the counter and the bounds of a loop in the frame of the loop. -/
def loopHead (ctx : Context) (id : Ident) (first last : Expr) (stmt : Stmt) (p : Progress) :
    Progress :=
  ctx.bounds first last stmt (ctx.counter id stmt (p.inScope .push))

/-- The head of a loop takes no event back. -/
theorem loopHead_grows (ctx : Context) (id : Ident) (first last : Expr) (stmt : Stmt)
    (p : Progress) : p.events <+: (ctx.loopHead id first last stmt p).events :=
  (ctx.counter_grows id stmt (p.inScope .push)).trans (ctx.bounds_grows _ _ _ _)

/-- A traversal that has stopped passes over a statement. -/
theorem statement_of_halts {ctx : Context} {p : Progress} (h : ctx.halts p = true) (s : Stmt) :
    ctx.statement s p = p := by
  rw [statement.eq_def, if_pos h]

section

variable {ctx : Context} {p : Progress} (h : ctx.halts p = false)

include h

/-- A declaration checks its type and then declares its names. -/
theorem statement_declare (isFinal : Bool) (type : WrittenType) (ds : List Declarator)
    (span : Span) :
    ctx.statement (.declare isFinal type ds span) p =
      ctx.declareLocals isFinal (.ofWritten type) (.declare isFinal type ds span) ds
        (p.absorb (ctx.demandType type)) :=
  if_neg (by simp [h])

/-- An assignment is checked by its place and its value. -/
theorem statement_assign (place value : Expr) (span : Span) :
    ctx.statement (.assign place value span) p =
      ctx.assignment place value (.assign place value span) p :=
  if_neg (by simp [h])

/-- A branch checks its condition and then the statement in a frame of its own. -/
theorem statement_ifThen (cond : Expr) (thenBranch : Stmt) (span : Span) :
    ctx.statement (.ifThen cond thenBranch span) p =
      ctx.nested thenBranch (ctx.condition cond (.ifThen cond thenBranch span) p) :=
  if_neg (by simp [h])

/-- With an `else` both statements are checked, each in a frame of its own. -/
theorem statement_ifElse (cond : Expr) (thenBranch elseBranch : Stmt) (span : Span) :
    ctx.statement (.ifElse cond thenBranch elseBranch span) p =
      ctx.nested elseBranch (ctx.nested thenBranch
        (ctx.condition cond (.ifElse cond thenBranch elseBranch span) p)) :=
  if_neg (by simp [h])

/-- The body of a loop has a frame of its own inside that of the counter. -/
theorem statement_loop (id : Ident) (first last : Expr) (direction : Direction) (body : Stmt)
    (span : Span) :
    ctx.statement (.loop id first last direction body span) p =
      ((ctx.nested body ((ctx.loopHead id first last (.loop id first last direction body span)
        p).inScope .enterLoop)).inScope .exitLoop).inScope .pop :=
  if_neg (by simp [h])

/-- A `break` demands a loop around it. -/
theorem statement_breakLoop (span : Span) :
    ctx.statement (.breakLoop span) p =
      p.demand p.scope.inLoop (Stmt.breaks (.breakLoop span) .mustInLoop) :=
  if_neg (by simp [h])

/-- So does a `continue`. -/
theorem statement_continueLoop (span : Span) :
    ctx.statement (.continueLoop span) p =
      p.demand p.scope.inLoop (Stmt.breaks (.continueLoop span) .mustInLoop) :=
  if_neg (by simp [h])

/-- A return is checked against the result of the method. -/
theorem statement_returnValue (value : Option Expr) (span : Span) :
    ctx.statement (.returnValue value span) p =
      ctx.returned value (.returnValue value span) p :=
  if_neg (by simp [h])

/-- A call is checked as an expression, whose type is dropped. -/
theorem statement_call (invocation : Expr) (span : Span) :
    ctx.statement (.call invocation span) p = p.absorb (ctx.exprType p.scope invocation) :=
  if_neg (by simp [h])

/-- A block checks its statements in a frame of its own. -/
theorem statement_block (stmts : List Stmt) (span : Span) :
    ctx.statement (.block stmts span) p =
      (ctx.statements stmts (p.inScope .push)).inScope .pop :=
  if_neg (by simp [h])

end

/-- No statements leave a check where it is. -/
@[simp] theorem statements_nil (ctx : Context) (p : Progress) : ctx.statements [] p = p := by
  rw [statements]

/-- Statements are checked one after another. -/
@[simp] theorem statements_cons (ctx : Context) (s : Stmt) (ss : List Stmt) (p : Progress) :
    ctx.statements (s :: ss) p = ctx.statements ss (ctx.statement s p) := by
  rw [statements]

/-! ## Growth of a traversal -/

mutual

/-- Checking a statement only adds events. -/
theorem statement_grows (ctx : Context) (s : Stmt) (p : Progress) :
    p.events <+: (ctx.statement s p).events := by
  cases h : ctx.halts p with
  | true => rw [statement_of_halts h]
  | false =>
    cases s with
    | declare isFinal type ds span =>
      rw [statement_declare h]
      exact (p.absorb_grows _).trans (ctx.declareLocals_grows _ _ _ _ _)
    | assign place value span =>
      rw [statement_assign h]
      exact ctx.assignment_grows _ _ _ _
    | ifThen cond thenBranch span =>
      rw [statement_ifThen h, nested_events]
      refine List.IsPrefix.trans ?_ (statement_grows ctx thenBranch _)
      exact ctx.condition_grows _ _ p
    | ifElse cond thenBranch elseBranch span =>
      rw [statement_ifElse h, nested_events]
      refine List.IsPrefix.trans ?_ (statement_grows ctx elseBranch _)
      refine List.IsPrefix.trans ?_ (statement_grows ctx thenBranch _)
      exact ctx.condition_grows _ _ p
    | loop id first last direction body span =>
      rw [statement_loop h]
      simp only [Progress.inScope_events, nested_events]
      refine List.IsPrefix.trans ?_ (statement_grows ctx body _)
      exact ctx.loopHead_grows _ _ _ _ p
    | breakLoop span =>
      rw [statement_breakLoop h]
      exact p.demand_grows _ _
    | continueLoop span =>
      rw [statement_continueLoop h]
      exact p.demand_grows _ _
    | returnValue value span =>
      rw [statement_returnValue h]
      exact ctx.returned_grows _ _ _
    | call invocation span =>
      rw [statement_call h]
      exact p.absorb_grows _
    | block stmts span =>
      rw [statement_block h]
      exact statements_grows ctx stmts (p.inScope .push)

/-- Checking statements in order only adds events. -/
theorem statements_grows (ctx : Context) (ss : List Stmt) (p : Progress) :
    p.events <+: (ctx.statements ss p).events := by
  cases ss with
  | nil => rw [statements_nil]
  | cons s ss =>
    rw [statements_cons]
    exact (statement_grows ctx s p).trans (statements_grows ctx ss _)

end

/-- A statement in a frame of its own takes no event back. -/
theorem nested_grows (ctx : Context) (s : Stmt) (p : Progress) :
    p.events <+: (ctx.nested s p).events := ctx.statement_grows s (p.inScope .push)

/-- Initial values of attributes take no event back. -/
theorem attributeInits_grows (ctx : Context) (decl : AttributeDecl) (ds : List Declarator)
    (p : Progress) : p.events <+: (ctx.attributeInits decl ds p).events := by
  induction ds generalizing p with
  | nil => exact List.prefix_refl _
  | cons d ds ih =>
    rw [attributeInits]
    cases d.init with
    | some init => exact (p.absorb_grows _).trans (ih _)
    | none => exact ih p

/-- Parameters take no event back. -/
theorem declareParams_grows (ctx : Context) (params : List Param) (p : Progress) :
    p.events <+: (ctx.declareParams params p).events := by
  induction params generalizing p with
  | nil => exact List.prefix_refl _
  | cons param params ih =>
    rw [declareParams]
    refine (p.absorb_grows (ctx.demandType param.type)).trans (List.IsPrefix.trans ?_ (ih _))
    split
    · exact List.prefix_refl _
    · exact Progress.report_grows _ _

/-- A body takes no event back. -/
theorem body_grows (ctx : Context) (params : List Param) (b : Block) (p : Progress) :
    p.events <+: (ctx.body params b p).events :=
  (ctx.declareParams_grows params (p.inScope .push)).trans (ctx.statements_grows b.stmts _)

/-- Checking a member only adds events. -/
theorem member_grows (ctx : Context) (m : Member) (p : Progress) :
    p.events <+: (ctx.member m p).events := by
  match m with
  | .attribute decl span =>
    exact (Progress.absorb_grows { p with assigned := [] } _).trans
      (attributeInits_grows _ _ _ _)
  | .method decl span =>
    rw [member]
    cases decl.result with
    | some type =>
      exact (Progress.absorb_grows { p with assigned := [] } _).trans (body_grows _ _ _ _)
    | none => exact body_grows _ _ _ { p with assigned := [] }
  | .ctor decl span =>
    exact (Progress.demand_grows { p with assigned := [] } _ _).trans (body_grows _ _ _ _)
  | .dtor decl span =>
    exact (Progress.demand_grows { p with assigned := [] } _ _).trans (body_grows _ _ _ _)

/-- Checking the members of a class only adds events. -/
theorem members_grows (ctx : Context) (ms : List Member) (p : Progress) :
    p.events <+: (ctx.members ms p).events := by
  induction ms generalizing p with
  | nil => exact List.prefix_refl _
  | cons m ms ih =>
    rw [members]
    split
    · exact List.prefix_refl _
    · exact (ctx.member_grows m p).trans (ih _)

end Context

/-- Checking a class only adds events. -/
theorem ClassTable.checkClass_grows (t : ClassTable) (walk : Walk) (c : ClassDecl)
    (p : Progress) : p.events <+: (t.checkClass walk c p).events :=
  (p.absorb_grows _).trans (Context.members_grows _ _ _)

/-- Checking the classes of a program only adds events. -/
theorem ClassTable.checkClasses_grows (t : ClassTable) (walk : Walk) (cs : List ClassDecl)
    (p : Progress) : p.events <+: (t.checkClasses walk cs p).events := by
  induction cs generalizing p with
  | nil => exact List.prefix_refl _
  | cons c cs ih =>
    rw [checkClasses]
    split
    · exact List.prefix_refl _
    · exact (t.checkClass_grows walk c p).trans (ih _)

end ClassCheck
