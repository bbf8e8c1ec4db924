import ClassCheck.Proofs.Blame
import ClassCheck.Proofs.StmtStatics
import ClassCheck.Proofs.Trace

/-!
# Statements and the names around them

Every statement of a member stands among local names: those of the frames around it, and those
that its own frame has before it. Both can be read off the syntax. As long as no name is declared
twice they are the names that a check has when it comes to the statement, and they are all of a
scope that the type of an expression depends on.
-/

namespace ClassCheck

/-! ## Types among names -/

/-- A local name under which a value has been stored. -/
def Local.toBinding (l : Local) : Binding := ⟨l.name, l.kind, l.type, true⟩

namespace Env

/-- A scope with the names, under each of which a value has been stored. -/
def scope : Env → Scope
  | [] => .empty
  | frame :: Γ =>
    ⟨⟨frame.map Local.toBinding, 0⟩, Γ.map fun outer => ⟨outer.map Local.toBinding, 0⟩⟩

/-- Declare names in the innermost frame. -/
def declare (ls : List Local) : Env → Env
  | [] => [ls]
  | frame :: Γ => (frame ++ ls) :: Γ

private theorem env_scope (frame : List Local) (Γ : Env) :
    (scope (frame :: Γ)).env = frame :: Γ := by
  have hlocals : ∀ ls : List Local, (⟨ls.map Local.toBinding, 0⟩ : Frame).locals = ls := by
    intro ls
    rw [Frame.locals, List.map_map]
    exact List.map_id ls
  simp [scope, Scope.env, Scope.frames, hlocals, Function.comp_def]

/-- Names may be declared in two parts. -/
theorem declare_declare (ls ls' : List Local) (Γ : Env) :
    (Γ.declare ls).declare ls' = Γ.declare (ls ++ ls') := by
  cases Γ with
  | nil => rfl
  | cons frame Γ => simp [declare]

end Env

@[simp] private theorem Scope.declare_nil_env (s : Scope) : s.env.declare [] = s.env := by
  simp [Env.declare, Scope.env, Scope.frames]

namespace Context

open Checked

section

variable {ctx : Context} {s s' : Scope} (h : s.env = s'.env)

include h

/-- The type of a name depends on the names in scope only. -/
theorem identType_value_congr (name : String) (e : Expr) :
    (ctx.identType s name e).value = (ctx.identType s' name e).value := by
  have hlookup : (s.lookup? name).map Binding.toLocal = (s'.lookup? name).map Binding.toLocal := by
    rw [← s.lookup?_env, ← s'.lookup?_env, h]
  unfold identType
  cases hb : s.lookup? name with
  | none =>
    rw [hb, Option.map_none, eq_comm, Option.map_eq_none_iff] at hlookup
    rw [hlookup]
  | some b =>
    rw [hb, Option.map_some, eq_comm, Option.map_eq_some_iff] at hlookup
    obtain ⟨b', hb', hlocal⟩ := hlookup
    obtain ⟨-, hkind, htype⟩ := Local.mk.inj hlocal
    rw [hb']
    dsimp only
    rw [readLocal_value, readLocal_value, hkind, htype]

end

mutual

/-- The type of an expression depends on the names in scope, and not on whether values have been
stored under them. -/
theorem exprType_value_congr {ctx : Context} {s s' : Scope} (h : s.env = s'.env) (e : Expr) :
    (ctx.exprType s e).value = (ctx.exprType s' e).value := by
  cases e with
  | ident name span =>
    rw [exprType, exprType]
    exact identType_value_congr h name _
  | paren inner span =>
    rw [exprType, exprType]
    exact exprType_value_congr h inner
  | binary op left right span =>
    simp only [exprType, bind_value, demandValue_value, exprType_value_congr h left,
      exprType_value_congr h right]
  | unary op operand span =>
    simp only [exprType, bind_value, demandValue_value, exprType_value_congr h operand]
  | index object position span =>
    simp only [exprType, bind_value, demandValue_value, exprType_value_congr h object,
      exprType_value_congr h position]
  | field object name span =>
    simp only [exprType, bind_value, demandValue_value, exprType_value_congr h object]
  | call receiver method args span =>
    simp only [exprType, bind_value, demandValue_value, exprType_value_congr h receiver,
      valueTypes_value_congr h args]
  | create className args span =>
    simp only [exprType, bind_value, valueTypes_value_congr h args]
  | array elements span =>
    simp only [exprType, bind_value, valueTypes_value_congr h elements]
  | _ => simp only [exprType]

private theorem valueTypes_value_congr {ctx : Context} {s s' : Scope} (h : s.env = s'.env)
    (es : List Expr) : (ctx.valueTypes s es).value = (ctx.valueTypes s' es).value := by
  cases es with
  | nil => simp only [valueTypes]
  | cons e es =>
    simp only [valueTypes, bind_value, pure_value, demandValue_value, exprType_value_congr h e,
      valueTypes_value_congr h es]

end

/-- The type that the check gives to an expression among names. An expression that has a violation
in it may still get one, say a call with a violation in an argument. -/
def typeAmong (ctx : Context) (Γ : Env) (e : Expr) : ExprTy := (ctx.exprType Γ.scope e).value

/-- A check among the names of a scope gives the types that it gives in the scope. -/
theorem typeAmong_env (ctx : Context) (s : Scope) (e : Expr) :
    ctx.typeAmong s.env e = (ctx.exprType s e).value :=
  exprType_value_congr (Env.env_scope _ _) e

end Context

/-! ## The names after a statement -/

/-- The names that a declaration adds. -/
def Stmt.locals : Stmt → List Local
  | .declare isFinal type ds _ =>
    ds.map fun d => ⟨d.name, if isFinal then .constant else .variable, .ofWritten type⟩
  | _ => []

namespace Context

/-- The frame that a loop puts around its body: the counter, unless there is a local name or an
attribute to count with. -/
def counterFrame (ctx : Context) (Γ : Env) (name : String) : List Local :=
  if (Γ.lookup? name).isSome || (ctx.table.findAttribute? ctx.className name).isSome then []
  else [⟨name, .variable, .int⟩]

/-- A counter is found just if it is a local name or an attribute of the class. -/
theorem isSome_counter? (ctx : Context) (s : Scope) (name : String) :
    (ctx.counter? s name).isSome =
      ((s.env.lookup? name).isSome || (ctx.table.findAttribute? ctx.className name).isSome) := by
  rw [Scope.lookup?_env]
  unfold counter?
  cases s.lookup? name <;> simp

/-- The frame of a loop is put on the frames around it. -/
theorem env_counter (ctx : Context) (id : Ident) (stmt : Stmt) (p : Progress) :
    (ctx.counter id stmt (p.inScope .push)).scope.env =
      ctx.counterFrame p.scope.env id.name :: p.scope.env := by
  have hsome : (ctx.counter? (p.inScope .push).scope id.name).isSome = _ :=
    ctx.isSome_counter? p.scope.push id.name
  -- A frame without names hides none.
  have hlookup : p.scope.push.env.lookup? id.name = p.scope.env.lookup? id.name := rfl
  rw [hlookup] at hsome
  unfold counter counterFrame
  rw [← hsome]
  cases ctx.counter? (p.inScope .push).scope id.name with
  | some found =>
    dsimp only
    rw [Progress.demand_scope, Progress.demand_scope]
    rfl
  | none => exact Progress.env_define _ (List.forall_mem_nil _)

/-- Unless a name is declared twice, all declared names come last in the innermost frame. -/
theorem env_declareLocals {ctx : Context} {isFinal : Bool} {T : Ty} {stmt : Stmt}
    (ds : List Declarator) {p : Progress}
    (h : (ctx.declareLocals isFinal T stmt ds p).Reports (·.priority ≠ .declaration)) :
    (ctx.declareLocals isFinal T stmt ds p).scope.env = p.scope.env.declare
      (ds.map fun d => ⟨d.name, if isFinal then .constant else .variable, T⟩) := by
  induction ds generalizing p with
  | nil => exact p.scope.declare_nil_env.symm
  | cons d ds ih =>
    rw [declareLocals] at h ⊢
    split at h
    · exact absurd rfl (Progress.reports_report_iff.mp h).2
    · rename_i hlocal
      have hnew : ∀ l ∈ (ctx.localInit isFinal T stmt d p).scope.inner.locals, l.name ≠ d.name := by
        rw [localInit_scope]
        intro l hl hname
        exact hlocal ((p.scope.lookupLocal?_isSome_iff d.name).mpr ⟨l, hl, hname⟩)
      rw [if_neg hlocal, ih h, Progress.env_define none hnew, localInit_scope]
      exact Env.declare_declare [_] _ p.scope.env

/-- Unless one is declared twice, parameters are the names that are added. -/
theorem env_declareParams {ctx : Context} (params : List Param) {p : Progress}
    (h : (ctx.declareParams params p).Reports (·.priority ≠ .declaration)) :
    (ctx.declareParams params p).scope.env =
      p.scope.env.declare (params.map Param.toLocal) := by
  induction params generalizing p with
  | nil => exact p.scope.declare_nil_env.symm
  | cons param params ih =>
    rw [declareParams] at h ⊢
    rw [ih h]
    have hhead := h.of_grows (ctx.declareParams_grows params _)
    split at hhead
    · rename_i scope hdefine
      dsimp only
      rw [Scope.env_of_define? hdefine]
      exact Env.declare_declare [param.toLocal] _ p.scope.env
    · exact absurd rfl (Progress.reports_report_iff.mp hhead).2

/-- The names after a statement are those before it and those that it declares. -/
theorem env_statement {ctx : Context} (hw : ctx.walk = .exhaustive) (s : Stmt) {p : Progress}
    (h : (ctx.statement s p).Reports (·.priority ≠ .declaration)) :
    (ctx.statement s p).scope.env = p.scope.env.declare s.locals := by
  cases s with
  | declare isFinal type ds span =>
    rw [statement_declare (halts_of_exhaustive hw p)] at h ⊢
    exact env_declareLocals ds h
  | _ =>
    refine Eq.trans ?_ p.scope.declare_nil_env.symm
    exact Scope.env_eq_of_shape (ctx.statement_fills _ rfl p).shape

end Context

/-! ## The statements of a member -/

/-- A statement and the names where it stands. -/
structure Occurrence where
  /-- The statement. -/
  stmt : Stmt
  /-- The names. -/
  names : Env

namespace Context

mutual

/-- A statement among names and all statements inside it, in the order in which they start. -/
def occurrences (ctx : Context) (Γ : Env) (s : Stmt) : List Occurrence :=
  ⟨s, Γ⟩ :: match s with
    | .ifThen _ thenBranch _ => ctx.occurrences ([] :: Γ) thenBranch
    | .ifElse _ thenBranch elseBranch _ =>
      ctx.occurrences ([] :: Γ) thenBranch ++ ctx.occurrences ([] :: Γ) elseBranch
    | .loop id _ _ _ body _ => ctx.occurrences ([] :: ctx.counterFrame Γ id.name :: Γ) body
    | .block stmts _ => ctx.allOccurrences ([] :: Γ) stmts
    | _ => []

/-- Statements in order, each among the names that those before it leave. -/
def allOccurrences (ctx : Context) (Γ : Env) (ss : List Stmt) : List Occurrence :=
  match ss with
  | [] => []
  | s :: ss => ctx.occurrences Γ s ++ ctx.allOccurrences (Γ.declare s.locals) ss

end

end Context

/-- The statements of a member; the parameters stand in the frame of the body. -/
def Context.memberOccurrences (ctx : Context) (m : Member) : List Occurrence :=
  ctx.allOccurrences (m.params.map Param.toLocal :: globalEnv) m.stmts

/-- A statement that a check comes to, and the names it has there. -/
def Arrival.occurrence (a : Arrival) : Occurrence := ⟨a.place.stmt, a.scope.env⟩

namespace Context

mutual

/-- Unless a name is declared twice, the names that a check has when it comes to the statements in
a statement are those that can be read off the syntax. -/
theorem map_occurrence_arrivals {ctx : Context} (hw : ctx.walk = .exhaustive) (s : Stmt)
    (around : List Stmt) {p : Progress}
    (h : (ctx.statement s p).Reports (·.priority ≠ .declaration)) :
    (ctx.arrivals around s p).map Arrival.occurrence = ctx.occurrences p.scope.env s := by
  have hh := halts_of_exhaustive hw p
  rw [arrivals_eq, occurrences.eq_def, if_neg (by simp [hh]), List.map_cons]
  refine congrArg (List.cons _) ?_
  cases s with
  | ifThen cond thenBranch span =>
    rw [statement_ifThen hh] at h
    have hthen := map_occurrence_arrivals hw thenBranch (.ifThen cond thenBranch span :: around) h
    rwa [Progress.inScope_scope, condition_scope] at hthen
  | ifElse cond thenBranch elseBranch span =>
    rw [statement_ifElse hh] at h
    have hfirst : (ctx.nested thenBranch (ctx.condition cond (.ifElse cond thenBranch elseBranch
        span) p)).Reports (·.priority ≠ .declaration) := h.of_grows (ctx.nested_grows _ _)
    have hthen := map_occurrence_arrivals hw thenBranch
      (.ifElse cond thenBranch elseBranch span :: around) hfirst
    have helse := map_occurrence_arrivals hw elseBranch
      (.ifElse cond thenBranch elseBranch span :: around) h
    rw [Progress.inScope_scope, condition_scope] at hthen
    rw [Progress.inScope_scope, Scope.env_push,
      Scope.env_eq_of_shape (ctx.nested_fills thenBranch _).shape, condition_scope] at helse
    rw [List.map_append, hthen]
    exact congrArg _ helse
  | loop id first last direction body span =>
    rw [statement_loop hh] at h
    have hbody := map_occurrence_arrivals hw body
      (.loop id first last direction body span :: around) h
    rw [Progress.inScope_scope, Scope.env_push, Progress.inScope_scope, Scope.env_enterLoop,
      loopHead, bounds_scope, env_counter] at hbody
    exact hbody
  | block stmts span =>
    rw [statement_block hh] at h
    exact map_occurrence_allArrivals hw stmts _ h
  | _ => rfl

/-- Unless a declaration fails, statements in order stand among the names that the syntax says. -/
theorem map_occurrence_allArrivals {ctx : Context} (hw : ctx.walk = .exhaustive) (ss : List Stmt)
    (around : List Stmt) {p : Progress}
    (h : (ctx.statements ss p).Reports (·.priority ≠ .declaration)) :
    (ctx.allArrivals around ss p).map Arrival.occurrence =
      ctx.allOccurrences p.scope.env ss := by
  cases ss with
  | nil =>
    rw [allArrivals_nil, allOccurrences]
    rfl
  | cons s ss =>
    rw [statements_cons] at h
    have hfirst := h.of_grows (ctx.statements_grows ss _)
    rw [allArrivals_cons, allOccurrences, List.map_append,
      map_occurrence_arrivals hw s around hfirst, map_occurrence_allArrivals hw ss around h,
      env_statement hw s hfirst]

end

end Context

end ClassCheck
