import ClassCheck.Proofs.Trace

/-!
# The expressions that a traversal looks at

A traversal gives a type to every expression it comes to: to the parts of an expression before
the expression itself, once more where a value is asked for, and to the place that an assignment
goes to. What it leaves out after it is settled gets no type. The functions here list the types in
this order, for each step of the check by itself.
-/

namespace ClassCheck

/-- An expression that a traversal looks at, with the type it gets. -/
structure Visit where
  /-- The expression. -/
  expr : Expr
  /-- Its type. -/
  type : ExprTy
  deriving Repr

namespace Context

/-! ## Expressions -/

/-- The type that an expression gets. -/
def visit (ctx : Context) (scope : Scope) (e : Expr) : Visit := ⟨e, (ctx.exprType scope e).value⟩

/-- The type that an expression gets where a value is asked for. -/
def valueVisit (ctx : Context) (scope : Scope) (e : Expr) : Visit :=
  ⟨e, (ctx.valueType scope e).value⟩

mutual

/-- What the check of an expression looks at. -/
def exprVisits (ctx : Context) (scope : Scope) : Expr → List Visit
  | .paren inner span => ctx.exprVisits scope inner ++ [ctx.visit scope (.paren inner span)]
  | .binary op left right span =>
    ctx.exprVisits scope left ++ [ctx.valueVisit scope left] ++
      (ctx.exprVisits scope right ++ [ctx.valueVisit scope right]) ++
      [ctx.visit scope (.binary op left right span)]
  | .unary op operand span =>
    ctx.exprVisits scope operand ++ [ctx.valueVisit scope operand] ++
      [ctx.visit scope (.unary op operand span)]
  | .index object position span =>
    ctx.exprVisits scope object ++ [ctx.valueVisit scope object] ++
      (ctx.exprVisits scope position ++ [ctx.valueVisit scope position]) ++
      [ctx.visit scope (.index object position span)]
  | .field object name span =>
    ctx.exprVisits scope object ++ [ctx.valueVisit scope object] ++
      [ctx.visit scope (.field object name span)]
  | .call receiver method args span =>
    ctx.exprVisits scope receiver ++ [ctx.valueVisit scope receiver] ++
      ctx.argVisits scope args ++ [ctx.visit scope (.call receiver method args span)]
  | .create className args span =>
    ctx.argVisits scope args ++ [ctx.visit scope (.create className args span)]
  | .array elements span =>
    ctx.argVisits scope elements ++ [ctx.visit scope (.array elements span)]
  | e => [ctx.visit scope e]

/-- What the check of expressions that have to be values looks at. -/
def argVisits (ctx : Context) (scope : Scope) : List Expr → List Visit
  | [] => []
  | e :: es => ctx.exprVisits scope e ++ [ctx.valueVisit scope e] ++ ctx.argVisits scope es

end

/-- What the check of a value looks at. -/
def valueVisits (ctx : Context) (scope : Scope) (e : Expr) : List Visit :=
  ctx.exprVisits scope e ++ [ctx.valueVisit scope e]

/-! ## Statements -/

/-- What the check of an initial value looks at, if there is one. -/
def initVisits (ctx : Context) (scope : Scope) (d : Declarator) : List Visit :=
  match d.init with
  | some init => ctx.valueVisits scope init
  | none => []

/-- What the declaration of local names looks at. -/
def localVisits (ctx : Context) (isFinal : Bool) (declared : Ty) (stmt : Stmt) :
    List Declarator → Progress → List Visit
  | [], _ => []
  | d :: ds, p =>
    if (p.scope.lookupLocal? d.name).isSome then []
    else
      let kind := if isFinal then .constant else .variable
      let q := (ctx.localInit isFinal declared stmt d p).define
        ⟨d.name, kind, declared, d.init.isSome⟩ none
      ctx.initVisits p.scope d ++ ctx.localVisits isFinal declared stmt ds q

/-- What the left side of an assignment looks at: parts that are values, and then the place. -/
def targetVisits (ctx : Context) (stmt : Stmt) (place : Expr) (p : Progress) : List Visit :=
  let parts := match place with
    | .ident .. => []
    | .field object _ _ => ctx.valueVisits p.scope object
    | _ => ctx.valueVisits p.scope place
  parts ++ [⟨place, (ctx.target stmt place p).1⟩]

/-- What the check of a statement looks at besides the statements in it. -/
def ownVisits (ctx : Context) (s : Stmt) (p : Progress) : List Visit :=
  match s with
  | .declare isFinal type ds _ =>
    ctx.localVisits isFinal (.ofWritten type) s ds (p.absorb (ctx.demandType type))
  | .assign place value _ =>
    ctx.valueVisits p.scope value ++
      ctx.targetVisits s place (p.absorb (ctx.valueType p.scope value))
  | .ifThen cond _ _ | .ifElse cond _ _ _ => ctx.valueVisits p.scope cond
  | .loop id first last _ _ _ =>
    let scope := (ctx.counter id s (p.inScope .push)).scope
    ctx.valueVisits scope first ++ ctx.valueVisits scope last
  | .returnValue (some e) _ => ctx.valueVisits p.scope e
  | .call invocation _ => ctx.exprVisits p.scope invocation
  | .breakLoop _ | .continueLoop _ | .returnValue none _ | .block _ _ => []

/-- What the check of a member looks at before its parameters and its body: the initial values of
attributes. -/
def headVisits (ctx : Context) (m : Member) (p : Progress) : List Visit :=
  match m with
  | .attribute decl _ => decl.declarators.flatMap ((ctx.inMember m).initVisits p.scope)
  | _ => []

end Context

/-! ## Programs -/

/-- What a step looks at. -/
def Step.visits (p : Progress) : Step → List Visit
  | .head ctx m => ctx.headVisits m p
  | .stmt ctx place => if ctx.halts p then [] else ctx.ownVisits place.stmt p
  | _ => []

/-- What the check of all members of a program looks at. -/
def ClassTable.visits (t : ClassTable) (walk : Walk) (p : Program) : List Visit :=
  Step.collect Step.visits .start (t.trace walk p)

end ClassCheck
