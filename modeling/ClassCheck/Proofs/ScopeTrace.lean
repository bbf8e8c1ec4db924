import ClassCheck.Proofs.Independence
import ClassCheck.Proofs.Nodes
import ClassCheck.Proofs.Occurrences
import ClassCheck.Proofs.ScopeStack
import ClassCheck.Proofs.TypeSources
import ClassCheck.Proofs.Visits

/-!
# The scopes that a check goes through

The check of members changes the local names by one operation after the other. Listed in order,
the operations lead from the names around all classes to those at the end, and every scope on the
way is reached after the first few of them. Each type that the check gives to an expression is
given in such a scope. A name is declared on the way with a type that is written in the program,
except for the counter of a loop, so whatever is true of these types is true of all names in all
scopes that the check goes through.
-/

namespace ClassCheck

/-! ## Operations of steps -/

namespace Scope

/-- The declarations of local names, up to one that the frame has already. -/
def localOps (isFinal : Bool) (declared : Ty) : List Declarator → Scope → List ScopeOp
  | [], _ => []
  | d :: ds, s =>
    if (s.lookupLocal? d.name).isSome then []
    else
      let kind := if isFinal then .constant else .variable
      let op := .define ⟨d.name, kind, declared, d.init.isSome⟩
      op :: localOps isFinal declared ds (s.apply op)

/-- A value is stored under a local name that can be written. -/
def storeOps (s : Scope) : Expr → List ScopeOp
  | .ident name _ => if (s.lookup? name).any Binding.isAssignable then [.store name] else []
  | _ => []

end Scope

namespace Context

/-- The counter of a loop is declared if there is no name for it. -/
def counterOps (ctx : Context) (s : Scope) (name : String) : List ScopeOp :=
  match ctx.counter? s name with
  | some _ => []
  | none => [.define ⟨name, .variable, .int, true⟩]

/-- The changes that a statement makes to the local names by what it has besides statements. -/
def ownOps (ctx : Context) (s : Stmt) (scope : Scope) : List ScopeOp :=
  match s with
  | .declare isFinal type ds _ => Scope.localOps isFinal (.ofWritten type) ds scope
  | .assign place _ _ => scope.storeOps place
  | .loop id _ _ _ _ _ => .push :: ctx.counterOps scope.push id.name
  | _ => []

end Context

/-- The declaration of a parameter. -/
def Param.op (param : Param) : ScopeOp :=
  .define ⟨param.name, .parameter, .ofWritten param.type, true⟩

/-- The changes that a step makes to the local names. -/
def Step.ops (p : Progress) : Step → List ScopeOp
  | .params _ ps => ps.map Param.op
  | .stmt ctx place => if ctx.halts p then [] else ctx.ownOps place.stmt p.scope
  | .push => [.push]
  | .pop => [.pop]
  | .enterLoop => [.enterLoop]
  | .exitLoop => [.exitLoop]
  | .enterClass _ | .head _ _ => []

/-- The changes that the check of all members of a program makes to the local names. -/
def ClassTable.scopeOps (t : ClassTable) (walk : Walk) (p : Program) : List ScopeOp :=
  Step.collect Step.ops .start (t.trace walk p)

/-! ## The operations lead from scope to scope -/

/-- A declaration is one operation, also where it fails. -/
theorem Progress.define_scope (p : Progress) (b : Binding) (span : Option Span) :
    (p.define b span).scope = p.scope.apply (.define b) := by
  rw [define, Scope.apply]
  cases p.scope.define? b <;> rfl

namespace Context

/-- Declarations of local names run through the operations for them. -/
theorem declareLocals_run (ctx : Context) (isFinal : Bool) (T : Ty) (stmt : Stmt)
    (ds : List Declarator) (p : Progress) :
    (ctx.declareLocals isFinal T stmt ds p).scope =
      p.scope.run (Scope.localOps isFinal T ds p.scope) := by
  induction ds generalizing p with
  | nil => rfl
  | cons d ds ih =>
    rw [declareLocals, Scope.localOps]
    split
    · rfl
    · rw [ih, Progress.define_scope, localInit_scope]
      rfl

private theorem writeName_run (ctx : Context) (stmt : Stmt) (name : String) (span : Span)
    (p : Progress) : (ctx.writeName stmt name span p).2.scope =
      p.scope.run (p.scope.storeOps (.ident name span)) := by
  rw [writeName, Scope.storeOps]
  cases p.scope.lookup? name with
  | some b =>
    dsimp only [Option.any_some]
    split <;> rfl
  | none =>
    dsimp only [Option.any_none]
    split
    · exact Progress.demand_scope _ _ _
    · split <;> rfl

/-- Writing to a place stores a value at most. -/
theorem target_run (ctx : Context) (stmt : Stmt) (place : Expr) (p : Progress) :
    (ctx.target stmt place p).2.scope = p.scope.run (p.scope.storeOps place) := by
  cases place with
  | ident name span => exact ctx.writeName_run stmt name span p
  | field object name span =>
    dsimp only [target, withValue]
    split
    · exact writeAttribute_scope ..
    · rfl
  | _ => rfl

private theorem assignment_run (ctx : Context) (place value : Expr) (stmt : Stmt) (p : Progress) :
    (ctx.assignment place value stmt p).scope = p.scope.run (p.scope.storeOps place) := by
  rw [← p.absorb_scope (ctx.valueType p.scope value), ← ctx.target_run stmt place]
  dsimp only [assignment, withValue]
  split
  · rename_i hq
    rw [hq, Progress.demand_scope]
  · rename_i hq
    rw [hq]

/-- A counter is one operation, or none. -/
theorem counter_run (ctx : Context) (id : Ident) (stmt : Stmt) (p : Progress) :
    (ctx.counter id stmt p).scope = p.scope.run (ctx.counterOps p.scope id.name) := by
  unfold counter counterOps
  cases ctx.counter? p.scope id.name with
  | some found =>
    dsimp only
    rw [Progress.demand_scope, Progress.demand_scope]
    rfl
  | none => exact p.define_scope _ _

/-- What a statement has besides statements runs through its own operations. -/
theorem own_run (ctx : Context) (s : Stmt) (p : Progress) :
    (ctx.own s p).scope = p.scope.run (ctx.ownOps s p.scope) := by
  cases s with
  | declare isFinal type ds span => exact ctx.declareLocals_run isFinal _ _ ds _
  | assign place value span => exact ctx.assignment_run place value _ p
  | ifThen cond thenBranch span => exact ctx.condition_scope cond _ p
  | ifElse cond thenBranch elseBranch span => exact ctx.condition_scope cond _ p
  | loop id first last direction body span =>
    rw [own, loopHead, bounds_scope, counter_run]
    rfl
  | breakLoop span => exact Progress.demand_scope _ _ _
  | continueLoop span => exact Progress.demand_scope _ _ _
  | returnValue value span => exact ctx.returned_scope value _ p
  | call invocation span => rfl
  | block stmts span => rfl

/-- Parameters run through one declaration each. -/
theorem declareParams_run (ctx : Context) (params : List Param) (p : Progress) :
    (ctx.declareParams params p).scope = p.scope.run (params.map Param.op) := by
  induction params generalizing p with
  | nil => rfl
  | cons param params ih =>
    rw [declareParams, ih, List.map_cons, Scope.run_cons]
    congr 1
    unfold Param.op Scope.apply
    dsimp only [Progress.absorb_scope]
    cases p.scope.define? ⟨param.name, .parameter, .ofWritten param.type, true⟩ <;> rfl

end Context

/-- The changes of a step lead to the scope after it. -/
theorem Step.run_scope (step : Step) (p : Progress) :
    (step.run p).scope = p.scope.run (step.ops p) := by
  cases step with
  | head ctx m => exact ctx.memberHead_scope m p
  | params ctx ps => exact ctx.declareParams_run ps p
  | stmt ctx place =>
    rw [run, ops]
    split
    · rfl
    · exact ctx.own_run place.stmt p
  | _ => rfl

/-- The changes of steps lead to the scope after them. -/
theorem Step.runAll_scope (steps : List Step) (p : Progress) :
    (runAll p steps).scope = p.scope.run (collect ops p steps) := by
  induction steps generalizing p with
  | nil => rfl
  | cons step steps ih => rw [runAll_cons, ih, run_scope, collect_cons, Scope.run_append]

/-- The changes that the check of a program makes lead to the scope after it. -/
theorem ClassTable.checkClasses_run (t : ClassTable) (walk : Walk) (p : Program) :
    (t.checkClasses walk p.classes .start).scope = Scope.global.run (t.scopeOps walk p) := by
  rw [← runAll_classesTrace, Step.runAll_scope]
  rfl

/-! ## The types of the names on the way -/

/-- The type of a name that an operation declares has a property. -/
def ScopeOp.Declares (P : Ty → Prop) : ScopeOp → Prop
  | .define b => P b.type
  | _ => True

/-- The types written inside a node have a property. -/
def Node.Writes (P : Ty → Prop) (n : Node) : Prop :=
  ∀ type, Node.Inside (.type type) n → P (.ofWritten type)

/-- What holds of all types written in a node holds of those in the nodes below. -/
theorem Node.Writes.below {P : Ty → Prop} {n k : Node} (h : n.Writes P)
    (hk : k ∈ n.children ++ n.asides) : k.Writes P :=
  fun type hin => h type (.deeper hk hin)

/-- So it does for those in a child. -/
theorem Node.Writes.child {P : Ty → Prop} {n k : Node} (h : n.Writes P) (hk : k ∈ n.children) :
    k.Writes P := h.below (List.mem_append_left _ hk)

/-- A type that is written has the property itself. -/
theorem Node.Writes.type {P : Ty → Prop} {type : WrittenType} (h : (Node.type type).Writes P) :
    P (.ofWritten type) := h type (.self _)

namespace Scope

/-- One operation keeps what is true of the types of all names. -/
theorem apply_all {P : Ty → Prop} {s : Scope} (hs : s.env.All P) {op : ScopeOp}
    (hop : op.Declares P) : (s.apply op).env.All P := by
  cases op with
  | define b =>
    rw [apply]
    cases h : s.define? b with
    | some s' => exact all_of_define? hs hop h
    | none => exact hs
  | store name =>
    rw [apply, env_eq_of_shape (s.fills_markInitialized name).shape]
    exact hs
  | push => exact Env.All.push hs
  | pop =>
    rcases s with ⟨inner, _ | ⟨frame, outer⟩⟩
    · exact hs
    · exact (List.forall_mem_cons.mp hs).2
  | enterLoop => exact hs
  | exitLoop => exact hs

/-- Operations keep a property of types that they declare names with. -/
theorem run_all {P : Ty → Prop} {ops : List ScopeOp} (hops : ∀ op ∈ ops, op.Declares P)
    {s : Scope} (hs : s.env.All P) : (s.run ops).env.All P := by
  induction ops generalizing s with
  | nil => exact hs
  | cons op ops ih =>
    rw [List.forall_mem_cons] at hops
    exact ih hops.2 (apply_all hs hops.1)

private theorem declares_localOps {P : Ty → Prop} {isFinal : Bool} {T : Ty} (hT : P T)
    (ds : List Declarator) (s : Scope) : ∀ op ∈ localOps isFinal T ds s, op.Declares P := by
  induction ds generalizing s with
  | nil => exact List.forall_mem_nil _
  | cons d ds ih =>
    rw [localOps]
    split
    · exact List.forall_mem_nil _
    · exact List.forall_mem_cons.mpr ⟨hT, ih _⟩

private theorem declares_storeOps {P : Ty → Prop} (s : Scope) (place : Expr) :
    ∀ op ∈ s.storeOps place, op.Declares P := by
  unfold storeOps
  split
  · split
    · exact List.forall_mem_singleton.mpr trivial
    · exact List.forall_mem_nil _
  · exact List.forall_mem_nil _

end Scope

namespace Context

private theorem declares_counterOps {P : Ty → Prop} (hint : P .int) (ctx : Context) (s : Scope)
    (name : String) : ∀ op ∈ ctx.counterOps s name, op.Declares P := by
  unfold counterOps
  split
  · exact List.forall_mem_nil _
  · exact List.forall_mem_singleton.mpr hint

/-- A statement declares names of the type that is written in it, and whole numbers. -/
theorem declares_ownOps {P : Ty → Prop} (hint : P .int) (ctx : Context) (s : Stmt)
    (hs : ∀ type ∈ s.declaredType?, P (.ofWritten type)) (scope : Scope) :
    ∀ op ∈ ctx.ownOps s scope, op.Declares P := by
  cases s with
  | declare isFinal type ds span => exact Scope.declares_localOps (hs type rfl) ds scope
  | assign place value span => exact scope.declares_storeOps place
  | loop id first last direction body span =>
    exact List.forall_mem_cons.mpr ⟨trivial, declares_counterOps hint ctx scope.push id.name⟩
  | _ => exact List.forall_mem_nil _

end Context

/-- A step declares names of the types that are written there, and whole numbers. -/
theorem Step.declares_ops {P : Ty → Prop} (hint : P .int) {step : Step} {p : Progress}
    (hstep : ∀ type ∈ step.declaredTypes p, P (.ofWritten type)) :
    ∀ op ∈ step.ops p, op.Declares P := by
  cases step with
  | params ctx ps =>
    rw [ops, List.forall_mem_map]
    exact fun param hparam => hstep _ (List.mem_map_of_mem hparam)
  | stmt ctx place =>
    rw [declaredTypes] at hstep
    rw [ops]
    split
    · exact List.forall_mem_nil _
    · rename_i hhalts
      rw [if_neg hhalts] at hstep
      exact Context.declares_ownOps hint ctx place.stmt
        (fun type htype => hstep type (Option.mem_toList.mpr htype)) p.scope
  | enterClass name => exact List.forall_mem_nil _
  | head ctx m => exact List.forall_mem_nil _
  | _ => exact List.forall_mem_singleton.mpr trivial

mutual

/-- What is true of the types written in a statement is true of those in the statements inside. -/
theorem Node.Writes.of_nestings {P : Ty → Prop} (s : Stmt) (around : List Stmt)
    (hs : (Node.stmt s).Writes P) : ∀ n ∈ s.nestings around, (Node.stmt n.stmt).Writes P := by
  rw [Stmt.nestings.eq_def]
  refine List.forall_mem_cons.mpr ⟨hs, ?_⟩
  cases s with
  | ifThen cond thenBranch span =>
    exact of_nestings thenBranch _ (hs.child (by simp [Node.children, Stmt.children]))
  | ifElse cond thenBranch elseBranch span =>
    exact List.forall_mem_append.mpr
      ⟨of_nestings thenBranch _ (hs.child (by simp [Node.children, Stmt.children])),
        of_nestings elseBranch _ (hs.child (by simp [Node.children, Stmt.children]))⟩
  | loop id first last direction body span =>
    exact of_nestings body _ (hs.child (by simp [Node.children, Stmt.children]))
  | block stmts span =>
    exact of_allNestings stmts _ fun s hmem => hs.child (List.mem_map_of_mem hmem)
  | _ => exact List.forall_mem_nil _

private theorem Node.Writes.of_allNestings {P : Ty → Prop} (ss : List Stmt) (around : List Stmt)
    (hss : ∀ s ∈ ss, (Node.stmt s).Writes P) :
    ∀ n ∈ Stmt.allNestings around ss, (Node.stmt n.stmt).Writes P := by
  cases ss with
  | nil =>
    rw [Stmt.allNestings]
    exact List.forall_mem_nil _
  | cons s ss =>
    obtain ⟨hs, hss⟩ := List.forall_mem_cons.mp hss
    rw [Stmt.allNestings]
    exact List.forall_mem_append.mpr ⟨of_nestings s around hs, of_allNestings ss around hss⟩

end

/-- The statements of a member stand in its body. -/
theorem Node.Writes.stmts {P : Ty → Prop} {m : Member} (h : (Node.member m).Writes P) :
    ∀ s ∈ m.stmts, (Node.stmt s).Writes P := by
  intro s hs
  have hbody : ∀ b : Block, Node.block b ∈ m.children → s ∈ b.stmts → (Node.stmt s).Writes P :=
    fun b hb hmem => (h.child hb).child (List.mem_map_of_mem hmem)
  rcases m with ⟨decl, span⟩ | ⟨decl, span⟩ | ⟨decl, span⟩ | ⟨decl, span⟩
  · cases hs
  all_goals exact hbody decl.body (by simp [Member.children]) hs

/-- The types that a step of classes declares names with are written in these classes. -/
theorem Step.InClasses.writes {P : Ty → Prop} {t : ClassTable} {walk : Walk}
    {cs : List ClassDecl} (hcs : ∀ c ∈ cs, (Node.classDecl c).Writes P) {step : Step}
    (h : step.InClasses t walk cs) (p : Progress) :
    ∀ type ∈ step.declaredTypes p, P (.ofWritten type) := by
  have hmember : ∀ c ∈ cs, ∀ m ∈ c.members, (Node.member m).Writes P := fun c hc m hm =>
    (hcs c hc).child (List.mem_append_right _ (List.mem_map_of_mem hm))
  cases step with
  | params ctx ps =>
    obtain ⟨c, hc, m, hm, rfl, -⟩ := h
    refine List.forall_mem_map.mpr fun param hparam => ?_
    have haside : Node.type param.type ∈ (Node.member m).asides := List.mem_map_of_mem hparam
    exact ((hmember c hc m hm).below (List.mem_append_right _ haside)).type
  | stmt ctx place =>
    obtain ⟨c, hc, m, hm, hplace, -⟩ := h
    have hstmt := Node.Writes.of_allNestings m.stmts [] (hmember c hc m hm).stmts place hplace
    intro type htype
    rw [declaredTypes] at htype
    split at htype
    · cases htype
    · obtain ⟨s, around⟩ := place
      cases s with
      | declare isFinal written ds span =>
        obtain rfl := List.mem_singleton.mp htype
        exact (hstmt.child List.mem_cons_self).type
      | _ => cases htype
  | _ => exact List.forall_mem_nil _

namespace ClassTable

/-- In every scope that the check goes through, the types of all names have the properties that
the types written in the program have, and the built-in ones. -/
theorem all_of_reached {P : Ty → Prop} (hint : P .int) (hio : P (.object ioClass))
    {t : ClassTable} {walk : Walk} {p : Program}
    (hp : ∀ c ∈ p.classes, (Node.classDecl c).Writes P) {ops : List ScopeOp}
    (hops : ops <+: t.scopeOps walk p) : (Scope.global.run ops).env.All P := by
  have hdeclares : ∀ op ∈ t.scopeOps walk p, op.Declares P := by
    refine Step.forall_collect (P := fun _ => True) (fun step hstep q _ => ⟨trivial, ?_⟩) trivial
    have hin := t.inClasses_classesTrace walk (List.Subset.refl _) .start step hstep
    exact Step.declares_ops hint (hin.writes hp q)
  refine Scope.run_all (fun op hop => hdeclares op (hops.subset hop)) ?_
  · rintro frame (_ | ⟨_, ⟨⟩⟩) l (_ | ⟨_, ⟨⟩⟩)
    exact hio

end ClassTable

/-! ## Where types are given -/

/-- A scope gives a type to an expression: by itself, as a value, or as a place to write to. -/
inductive Visit.At (ctx : Context) (s : Scope) : Visit → Prop
  /-- By itself. -/
  | expr (e : Expr) : At ctx s (ctx.visit s e)
  /-- As a value. -/
  | value (e : Expr) : At ctx s (ctx.valueVisit s e)
  /-- As a place. -/
  | place (stmt : Stmt) (place : Expr) {p : Progress} :
      p.scope = s → At ctx s ⟨place, (ctx.target stmt place p).1⟩

/-- A type is given in a scope that operations go through, after the first few of them. -/
def Visit.Along (t : ClassTable) (s : Scope) (ops : List ScopeOp) (v : Visit) : Prop :=
  ∃ ctx first, ctx.table = t ∧ first <+: ops ∧ v.At ctx (s.run first)

namespace Visit

variable {t : ClassTable} {s : Scope} {ops ops' : List ScopeOp} {v : Visit}

/-- A type given in a scope is given along all operations from there. -/
theorem Along.of_at {ctx : Context} (h : v.At ctx s) : v.Along ctx.table s ops :=
  ⟨ctx, [], rfl, List.nil_prefix, h⟩

/-- More operations behind leave it on the way. -/
theorem Along.append (h : v.Along t s ops) (ops' : List ScopeOp) :
    v.Along t s (ops ++ ops') := by
  obtain ⟨ctx, first, ht, hfirst, hv⟩ := h
  exact ⟨ctx, first, ht, hfirst.trans (List.prefix_append _ _), hv⟩

/-- So do operations before. -/
theorem Along.after (ops : List ScopeOp) (h : v.Along t (s.run ops) ops') :
    v.Along t s (ops ++ ops') := by
  obtain ⟨ctx, first, ht, hfirst, hv⟩ := h
  refine ⟨ctx, ops ++ first, ht, (List.prefix_append_right_inj ops).mpr hfirst, ?_⟩
  rwa [Scope.run_append]

/-- So does one operation before. -/
theorem Along.step {op : ScopeOp} (h : v.Along t (s.apply op) ops) : v.Along t s (op :: ops) :=
  Along.after [op] h

end Visit

namespace Context

mutual

/-- Types in an expression are given in the scope of the expression. -/
theorem exprVisits_at (ctx : Context) (s : Scope) (e : Expr) :
    ∀ v ∈ ctx.exprVisits s e, v.At ctx s := by
  have hpart : ∀ part, (∀ v ∈ ctx.exprVisits s part, v.At ctx s) →
      ∀ v ∈ ctx.exprVisits s part ++ [ctx.valueVisit s part], v.At ctx s :=
    fun part h => List.forall_mem_append.mpr ⟨h, List.forall_mem_singleton.mpr (.value part)⟩
  have hself : ∀ v ∈ [ctx.visit s e], v.At ctx s := List.forall_mem_singleton.mpr (.expr e)
  cases e with
  | paren inner span =>
    rw [exprVisits]
    exact List.forall_mem_append.mpr ⟨exprVisits_at ctx s inner, hself⟩
  | binary op left right span =>
    rw [exprVisits]
    exact List.forall_mem_append.mpr ⟨List.forall_mem_append.mpr
      ⟨hpart left (exprVisits_at ctx s left), hpart right (exprVisits_at ctx s right)⟩, hself⟩
  | unary op operand span =>
    rw [exprVisits]
    exact List.forall_mem_append.mpr ⟨hpart operand (exprVisits_at ctx s operand), hself⟩
  | index object position span =>
    rw [exprVisits]
    exact List.forall_mem_append.mpr ⟨List.forall_mem_append.mpr
      ⟨hpart object (exprVisits_at ctx s object), hpart position (exprVisits_at ctx s position)⟩,
      hself⟩
  | field object name span =>
    rw [exprVisits]
    exact List.forall_mem_append.mpr ⟨hpart object (exprVisits_at ctx s object), hself⟩
  | call receiver method args span =>
    rw [exprVisits]
    exact List.forall_mem_append.mpr ⟨List.forall_mem_append.mpr
      ⟨hpart receiver (exprVisits_at ctx s receiver), argVisits_at ctx s args⟩, hself⟩
  | create className args span =>
    rw [exprVisits]
    exact List.forall_mem_append.mpr ⟨argVisits_at ctx s args, hself⟩
  | array elements span =>
    rw [exprVisits]
    exact List.forall_mem_append.mpr ⟨argVisits_at ctx s elements, hself⟩
  | _ =>
    rw [exprVisits]
    · exact hself
    all_goals simp

private theorem argVisits_at (ctx : Context) (s : Scope) (es : List Expr) :
    ∀ v ∈ ctx.argVisits s es, v.At ctx s := by
  cases es with
  | nil =>
    rw [argVisits]
    exact List.forall_mem_nil _
  | cons e es =>
    rw [argVisits]
    exact List.forall_mem_append.mpr ⟨List.forall_mem_append.mpr
      ⟨exprVisits_at ctx s e, List.forall_mem_singleton.mpr (.value e)⟩, argVisits_at ctx s es⟩

end

private theorem valueVisits_at (ctx : Context) (s : Scope) (e : Expr) :
    ∀ v ∈ ctx.valueVisits s e, v.At ctx s :=
  List.forall_mem_append.mpr ⟨ctx.exprVisits_at s e, List.forall_mem_singleton.mpr (.value e)⟩

private theorem initVisits_at (ctx : Context) (s : Scope) (d : Declarator) :
    ∀ v ∈ ctx.initVisits s d, v.At ctx s := by
  unfold initVisits
  cases d.init with
  | some init => exact ctx.valueVisits_at s init
  | none => exact List.forall_mem_nil _

/-- So are those in a place to write to. -/
theorem targetVisits_at (ctx : Context) (stmt : Stmt) (place : Expr) (p : Progress) :
    ∀ v ∈ ctx.targetVisits stmt place p, v.At ctx p.scope := by
  refine List.forall_mem_append.mpr ⟨?_, List.forall_mem_singleton.mpr (.place stmt place rfl)⟩
  split
  · exact List.forall_mem_nil _
  · exact ctx.valueVisits_at p.scope _
  · exact ctx.valueVisits_at p.scope _

/-- An initial value is checked before its name is declared. -/
theorem localVisits_along (ctx : Context) (isFinal : Bool) (T : Ty) (stmt : Stmt)
    (ds : List Declarator) (p : Progress) :
    ∀ v ∈ ctx.localVisits isFinal T stmt ds p,
      v.Along ctx.table p.scope (Scope.localOps isFinal T ds p.scope) := by
  induction ds generalizing p with
  | nil => exact List.forall_mem_nil _
  | cons d ds ih =>
    rw [localVisits, Scope.localOps]
    split
    · exact List.forall_mem_nil _
    · refine List.forall_mem_append.mpr ⟨fun v hv => .of_at (ctx.initVisits_at p.scope d v hv), ?_⟩
      intro v hv
      have hrest := ih _ v hv
      rw [Progress.define_scope, localInit_scope] at hrest
      exact hrest.step

/-- Each type that a statement gives by itself is given in a scope that it goes through. -/
theorem ownVisits_along (ctx : Context) (s : Stmt) (p : Progress) :
    ∀ v ∈ ctx.ownVisits s p, v.Along ctx.table p.scope (ctx.ownOps s p.scope) := by
  -- A value is checked before the names change.
  have hvalue : ∀ (e : Expr) (ops : List ScopeOp), ∀ v ∈ ctx.valueVisits p.scope e,
      v.Along ctx.table p.scope ops := fun e ops v hv => .of_at (ctx.valueVisits_at p.scope e v hv)
  cases s with
  | declare isFinal type ds span => exact ctx.localVisits_along isFinal _ _ ds _
  | assign place value span =>
    exact List.forall_mem_append.mpr ⟨hvalue value _, fun v hv => .of_at
      (ctx.targetVisits_at _ place (p.absorb (ctx.valueType p.scope value)) v hv)⟩
  | ifThen cond thenBranch span => exact hvalue cond _
  | ifElse cond thenBranch elseBranch span => exact hvalue cond _
  | loop id first last direction body span =>
    -- The bounds are checked when the counter is there.
    have hbound : ∀ e, ∀ v ∈ ctx.valueVisits (ctx.counter id
        (.loop id first last direction body span) (p.inScope .push)).scope e,
        v.Along ctx.table p.scope (.push :: ctx.counterOps p.scope.push id.name) := by
      intro e v hv
      rw [counter_run] at hv
      have hat : v.Along ctx.table _ [] := .of_at (ctx.valueVisits_at _ e v hv)
      rw [← List.append_nil (_ :: _)]
      exact .after _ hat
    exact List.forall_mem_append.mpr ⟨hbound first, hbound last⟩
  | returnValue value span =>
    cases value with
    | some e => exact hvalue e _
    | none => exact List.forall_mem_nil _
  | call invocation span =>
    exact fun v hv => .of_at (ctx.exprVisits_at p.scope invocation v hv)
  | _ => exact List.forall_mem_nil _

end Context

namespace Step

/-- Each type that a step gives is given in a scope that it goes through. -/
theorem visits_along {t : ClassTable} {step : Step}
    (hctx : ∀ ctx, step.ctx? = some ctx → ctx.table = t) (p : Progress) :
    ∀ v ∈ step.visits p, v.Along t p.scope (step.ops p) := by
  cases step with
  | head ctx m =>
    obtain rfl := hctx ctx rfl
    rcases m with ⟨decl, span⟩ | ⟨decl, span⟩ | ⟨decl, span⟩ | ⟨decl, span⟩
    · intro v hv
      obtain ⟨d, -, hv⟩ := List.mem_flatMap.mp hv
      exact ⟨ctx.enter decl.isStatic false none, [], rfl, List.nil_prefix,
        Context.initVisits_at _ p.scope d v hv⟩
    all_goals exact List.forall_mem_nil _
  | stmt ctx place =>
    obtain rfl := hctx ctx rfl
    rw [visits, ops]
    split
    · exact List.forall_mem_nil _
    · exact ctx.ownVisits_along place.stmt p
  | _ => exact List.forall_mem_nil _

/-- All types of a trace are given along its operations. -/
theorem collect_visits_along {t : ClassTable} {steps : List Step}
    (hctx : ∀ step ∈ steps, ∀ ctx, step.ctx? = some ctx → ctx.table = t) (p : Progress) :
    ∀ v ∈ collect visits p steps, v.Along t p.scope (collect ops p steps) := by
  induction steps generalizing p with
  | nil => exact List.forall_mem_nil _
  | cons step steps ih =>
    obtain ⟨hstep, hsteps⟩ := List.forall_mem_cons.mp hctx
    refine List.forall_mem_append.mpr ⟨fun v hv => (visits_along hstep p v hv).append _, ?_⟩
    intro v hv
    have hrest := ih hsteps (step.run p) v hv
    rw [run_scope] at hrest
    exact .after _ hrest

end Step

/-- Each type that the check of a program gives is given in a scope that it goes through. -/
theorem ClassTable.visits_along (t : ClassTable) (walk : Walk) (p : Program) :
    ∀ v ∈ t.visits walk p, v.Along t .global (t.scopeOps walk p) := by
  refine Step.collect_visits_along (fun step hstep ctx hctx => ?_) .start
  have hin := t.inClasses_classesTrace walk (List.Subset.refl _) .start step hstep
  exact (hin.of_ctx? hctx).2.1

end ClassCheck
