import ClassCheck.Proofs.EarlyStop
import ClassCheck.Proofs.Nodes

/-!
# The nodes that violations are blamed on

Every violation but a missing start is blamed on a node of the syntax tree. The rule decides of
what sort the node is, the node gives the violation its place, and the text that the violation
quotes is the source form of the node or the name that it declares or refers to. So whatever
comes up in the check of a node is blamed on a node inside it.
-/

namespace ClassCheck

namespace Rule

/-- The rules that an expression as a whole can break. -/
def ofExprs : List Rule :=
  [.mismatchInExpression, .illegalMemberAccess, .illegalArrayLiteral, .illegalConstantExpression]

/-- The rules that an initial value breaks if its type does not fit. -/
def ofInits : List Rule := [.mismatchInStatement, .mismatchInConstant]

/-- The rules that a statement as a whole can break. -/
def ofStmts : List Rule := .mustInLoop :: .cannotAssignToConstant :: ofInits

/-- What an initial value breaks is broken by its statement. -/
theorem mem_ofStmts {rule : Rule} (h : rule ∈ ofInits) : rule ∈ ofStmts :=
  List.mem_cons_of_mem _ (List.mem_cons_of_mem _ h)

end Rule

/-- The name under which a member is declared; attributes have one each. -/
def Member.name? : Member → Option String
  | .attribute .. => none
  | .method decl _ => some decl.name
  | .ctor decl _ => some decl.name
  | .dtor decl _ => some decl.name

namespace Node

/-- A violation that a node by itself can be blamed for. -/
inductive Blamed : Node → Violation → Prop
  /-- A rule is broken by an expression. -/
  | expr {e : Expr} {rule : Rule} : rule ∈ Rule.ofExprs → Blamed (.expr e) (e.breaks rule)
  /-- A name is not declared. -/
  | ident (name : String) (span : Span) :
      Blamed (.expr (.ident name span)) (.broken .undeclaredIdentifier name span)
  /-- An attribute behind a dot is not declared. -/
  | field (object : Expr) (name : String) (span : Span) :
      Blamed (.expr (.field object name span)) (.broken .undeclaredAttribute name span)
  /-- A method that is called is not declared. -/
  | call (receiver : Expr) (name : String) (args : List Expr) (span : Span) :
      Blamed (.expr (.call receiver name args span)) (.broken .undeclaredMethod name span)
  /-- The class that an object is made of is not declared. -/
  | create (name : String) (args : List Expr) (span : Span) :
      Blamed (.expr (.create name args span)) (.broken .undeclaredClass name span)
  /-- A class that is written as a type is not declared. -/
  | type (name : String) (span : Span) :
      Blamed (.type (.named name span)) (.broken .undeclaredClass name span)
  /-- A local name or an attribute is declared twice. -/
  | declarator (d : Declarator) (what : Declared) :
      Blamed (.declarator d) (.broken (.redeclared what) d.name d.span)
  /-- A rule is broken by a statement. -/
  | stmt {s : Stmt} {rule : Rule} : rule ∈ Rule.ofStmts → Blamed (.stmt s) (s.breaks rule)
  /-- A parameter or a class is declared twice. -/
  | name (id : Ident) (what : Declared) :
      Blamed (.name id) (.broken (.redeclared what) id.name id.span)
  /-- The class that a class extends is not declared. -/
  | parent (id : Ident) : Blamed (.name id) (.broken .undeclaredClass id.name id.span)
  /-- A method, a constructor or a destructor is declared twice. -/
  | member {m : Member} {name : String} (what : Declared) : m.name? = some name →
      Blamed (.member m) (.broken (.redeclared what) name m.span)
  /-- A constructor or a destructor has the name of another class. -/
  | misnamed (m : Member) : Blamed (.member m) (m.breaks .mismatchInStatement)
  /-- The initial value of an attribute does not fit. The violation quotes the attributes that are
  declared together, and stands at the one with the value. -/
  | init {decl : AttributeDecl} {span : Span} {d : Declarator} {rule : Rule} :
      d ∈ decl.declarators → rule ∈ Rule.ofInits →
      Blamed (.member (.attribute decl span)) (.broken rule decl.render d.span)

/-- No node is blamed for a missing method to start with. -/
theorem Blamed.ne_noEntryPoint {n : Node} {v : Violation} (h : n.Blamed v) :
    v ≠ .noEntryPoint := by
  rintro rfl
  cases h

/-- What is inside of a node is inside of all nodes around it. -/
theorem Inside.trans {a b c : Node} (hab : Inside a b) (hbc : Inside b c) : Inside a c := by
  induction hbc with
  | self => exact hab
  | deeper hk _ ih => exact .deeper hk ih

/-- A violation is blamed on a node inside the node. -/
def Faults (n : Node) (v : Violation) : Prop := ∃ m : Node, m.Inside n ∧ m.Blamed v

/-- A node that is blamed is at fault itself. -/
theorem Blamed.faults {n : Node} {v : Violation} (h : n.Blamed v) : n.Faults v :=
  ⟨n, .self n, h⟩

/-- A node is at fault for all that is inside of it. -/
theorem Inside.faults {m n : Node} {v : Violation} (hin : m.Inside n) (h : m.Faults v) :
    n.Faults v := by
  obtain ⟨k, hk, hblamed⟩ := h
  exact ⟨k, hk.trans hin, hblamed⟩

private theorem faults_of_child {k n : Node} {v : Violation} (hk : k ∈ n.children)
    (h : k.Faults v) : n.Faults v :=
  Inside.faults (.deeper (List.mem_append_left _ hk) (.self k)) h

private theorem faults_of_aside {k n : Node} {v : Violation} (hk : k ∈ n.asides) (h : k.Faults v) :
    n.Faults v :=
  Inside.faults (.deeper (List.mem_append_right _ hk) (.self k)) h

/-- An expression is at fault for the rules of expressions. -/
theorem faults_of_ofExprs {e : Expr} {rule : Rule} (h : rule ∈ Rule.ofExprs) :
    (Node.expr e).Faults (e.breaks rule) := (Blamed.expr h).faults

end Node

/-! ## Expressions -/

namespace Checked

/-- All violations that came up are of one sort. -/
def Reports {α : Type} (P : Violation → Prop) (c : Checked α) : Prop :=
  ∀ v, .violation v ∈ c.events → P v

section

variable {P : Violation → Prop} {α β : Type}

/-- What is reported may be said less exactly. -/
theorem Reports.mono {Q : Violation → Prop} {c : Checked α} (h : c.Reports P)
    (hPQ : ∀ v, P v → Q v) : c.Reports Q := fun v hv => hPQ v (h v hv)

@[simp] private theorem reports_pure (a : α) : (pure a : Checked α).Reports P := by
  simp [Reports]

/-- Two checks in a row report what both do. -/
@[simp] theorem reports_bind_iff {c : Checked α} {f : α → Checked β} :
    (c >>= f).Reports P ↔ c.Reports P ∧ (f c.value).Reports P := by
  simp only [Reports, bind_events, List.mem_append, or_imp, forall_and]

@[simp] private theorem reports_note_iff {event : Event} :
    (note event).Reports P ↔ ∀ v, .violation v = event → P v := by
  simp [Reports, note]

/-- A report is of its violation and no other. -/
@[simp] theorem reports_report_iff {v : Violation} : (report v).Reports P ↔ P v := by
  simp [report]

@[simp] private theorem reports_poison_iff {e : Expr} {rule : Rule} :
    (poison e rule).Reports P ↔ P (e.breaks rule) := by
  simp [poison]

private theorem reports_orMismatch {e : Expr} (h : P (e.breaks .mismatchInExpression))
    (o : Option ExprTy) : (orMismatch e o).Reports P := by
  cases o <;> simp [orMismatch, h]

/-- That a value is asked for adds one reason to be blamed. -/
theorem Reports.demandValue {e : Expr} {c : Checked ExprTy} (hc : c.Reports P)
    (h : P (e.breaks .mismatchInExpression)) : (demandValue e c).Reports P := by
  rw [Checked.demandValue, reports_bind_iff]
  refine ⟨hc, ?_⟩
  cases c.value <;> simp [h]

end

end Checked

namespace Context

open Checked

section

variable {P : Violation → Prop} (ctx : Context)

private theorem reports_receiver? {access : Expr} (h : P (access.breaks .mismatchInExpression))
    (τ : ExprTy) : (ctx.receiver? access τ).Reports P := by
  unfold receiver?
  split <;> simp [h]

/-- An attribute behind a dot is blamed on the access, or on its name. -/
theorem reports_attribute? {access : Expr} {name : String}
    (hrule : ∀ rule ∈ Rule.ofExprs, P (access.breaks rule))
    (hname : P (.broken .undeclaredAttribute name access.span)) (τ : ExprTy) :
    (ctx.attribute? access name τ).Reports P := by
  rw [attribute?, reports_bind_iff]
  refine ⟨ctx.reports_receiver? (hrule _ (by decide)) τ, ?_⟩
  split
  · simp
  · split
    · simp [hname]
    · split <;> simp [hrule .illegalMemberAccess (by decide)]

/-- So is a method behind a dot. -/
theorem reports_method? {call : Expr} {name : String}
    (hrule : ∀ rule ∈ Rule.ofExprs, P (call.breaks rule))
    (hname : P (.broken .undeclaredMethod name call.span)) (τ : ExprTy) :
    (ctx.method? call name τ).Reports P := by
  rw [method?, reports_bind_iff]
  refine ⟨ctx.reports_receiver? (hrule _ (by decide)) τ, ?_⟩
  split
  · simp
  · split
    · simp [hname]
    · split <;> simp [hrule .illegalMemberAccess (by decide)]

private theorem reports_identType {name : String} {e : Expr} (scope : Scope)
    (h : P (.broken .undeclaredIdentifier name e.span)) :
    (ctx.identType scope name e).Reports P := by
  unfold identType readLocal
  split
  · rename_i b _
    cases b.initialized <;> cases b.kind <;> simp
  · split
    · simp
    · split <;> simp [h]

private theorem reports_callResult {call : Expr} (h : P (call.breaks .mismatchInExpression))
    (signature : Option Signature) (args : List ExprTy) :
    (ctx.callResult call signature args).Reports P := by
  unfold callResult
  split
  · simp
  · split <;> simp [h]

private theorem reports_demandClass {className : String} {e : Expr}
    (h : P (.broken .undeclaredClass className e.span)) :
    (ctx.demandClass className e).Reports P := by
  unfold demandClass
  split <;> simp [h]

private theorem reports_createResult {e : Expr} (h : P (e.breaks .mismatchInExpression))
    (className : String) (args : List ExprTy) : (ctx.createResult e className args).Reports P := by
  unfold createResult
  split
  · dsimp only
    split <;> simp [h]
  · simp

private theorem reports_arrayResult {e : Expr} (h : P (e.breaks .illegalArrayLiteral))
    (types : List ExprTy) : (arrayResult e types).Reports P := by
  unfold arrayResult
  split
  · simp
  · split <;> simp [h]

end

mutual

/-- Whatever comes up in the check of an expression is blamed on an expression in it. -/
theorem faults_exprType (ctx : Context) (scope : Scope) (e : Expr) :
    (ctx.exprType scope e).Reports (Node.expr e).Faults := by
  have hrule : ∀ rule ∈ Rule.ofExprs, (Node.expr e).Faults (e.breaks rule) := fun rule h =>
    Node.faults_of_ofExprs h
  have hmismatch := hrule .mismatchInExpression (by decide)
  -- A part that has to be a value is blamed itself if it is none, and lies inside.
  have hpart : ∀ part ∈ e.children, (ctx.exprType scope part).Reports (Node.expr part).Faults →
      (demandValue part (ctx.exprType scope part)).Reports (Node.expr e).Faults := by
    intro part hpart hreports
    refine (hreports.demandValue (Node.faults_of_ofExprs (by decide))).mono fun v => ?_
    exact Node.faults_of_child (List.mem_map_of_mem hpart)
  cases e with
  | ident name span => exact ctx.reports_identType scope (Node.Blamed.ident name span).faults
  | self span =>
    rw [exprType, selfType]
    split
    · exact reports_poison_iff.mpr (hrule _ (by decide))
    · simp
  | paren inner span =>
    rw [exprType]
    refine (faults_exprType ctx scope inner).mono fun v => ?_
    exact Node.faults_of_child (List.mem_map_of_mem (by simp [Expr.children]))
  | binary op left right span =>
    rw [exprType, reports_bind_iff, reports_bind_iff]
    exact ⟨hpart left (by simp [Expr.children]) (faults_exprType ctx scope left),
      hpart right (by simp [Expr.children]) (faults_exprType ctx scope right),
      reports_orMismatch hmismatch _⟩
  | unary op operand span =>
    rw [exprType, reports_bind_iff]
    exact ⟨hpart operand (by simp [Expr.children]) (faults_exprType ctx scope operand),
      reports_orMismatch hmismatch _⟩
  | index object position span =>
    rw [exprType, reports_bind_iff, reports_bind_iff]
    exact ⟨hpart object (by simp [Expr.children]) (faults_exprType ctx scope object),
      hpart position (by simp [Expr.children]) (faults_exprType ctx scope position),
      reports_orMismatch hmismatch _⟩
  | field object name span =>
    rw [exprType, reports_bind_iff, reports_bind_iff]
    refine ⟨hpart object (by simp [Expr.children]) (faults_exprType ctx scope object),
      ctx.reports_attribute? hrule (Node.Blamed.field object name span).faults _, ?_⟩
    split <;> simp
  | call receiver method args span =>
    rw [exprType, reports_bind_iff, reports_bind_iff, reports_bind_iff]
    refine ⟨hpart receiver (by simp [Expr.children]) (faults_exprType ctx scope receiver),
      ctx.reports_method? hrule (Node.Blamed.call receiver method args span).faults _, ?_,
      ctx.reports_callResult hmismatch _ _⟩
    exact faults_valueTypes ctx scope args fun part hmem =>
      hpart part (List.mem_cons_of_mem _ hmem)
  | create className args span =>
    rw [exprType, reports_bind_iff, reports_bind_iff]
    exact ⟨ctx.reports_demandClass (Node.Blamed.create className args span).faults,
      faults_valueTypes ctx scope args hpart, ctx.reports_createResult hmismatch _ _⟩
  | array elements span =>
    rw [exprType, reports_bind_iff]
    exact ⟨faults_valueTypes ctx scope elements hpart,
      reports_arrayResult (hrule _ (by decide)) _⟩
  | _ => simp [exprType]

/-- Values in order are blamed one by one. -/
theorem faults_valueTypes (ctx : Context) (scope : Scope) (es : List Expr)
    {P : Violation → Prop}
    (hP : ∀ e ∈ es, (ctx.exprType scope e).Reports (Node.expr e).Faults →
      (demandValue e (ctx.exprType scope e)).Reports P) :
    (ctx.valueTypes scope es).Reports P := by
  cases es with
  | nil => simp [valueTypes]
  | cons e es =>
    obtain ⟨he, hes⟩ := List.forall_mem_cons.mp hP
    rw [valueTypes, reports_bind_iff, reports_bind_iff]
    exact ⟨he (faults_exprType ctx scope e), faults_valueTypes ctx scope es hes, reports_pure _⟩

end

/-- A value is blamed on a node in it. -/
theorem faults_valueType (ctx : Context) (scope : Scope) (e : Expr) :
    (ctx.valueType scope e).Reports (Node.expr e).Faults :=
  (ctx.faults_exprType scope e).demandValue (Node.faults_of_ofExprs (by decide))

/-- The class in a type is written at a type inside. -/
theorem faults_className? {type : WrittenType} {c : Ident} (h : type.className? = some c) :
    (Node.type type).Faults (.broken .undeclaredClass c.name c.span) := by
  induction type with
  | primitive => cases h
  | named name span =>
    cases h
    exact (Node.Blamed.type name span).faults
  | array element size span ih =>
    exact Node.faults_of_child (by simp [Node.children, WrittenType.children]) (ih h)
  | reference referent span ih =>
    exact Node.faults_of_child (by simp [Node.children, WrittenType.children]) (ih h)

/-- A written type is blamed on itself. -/
theorem faults_demandType (ctx : Context) (type : WrittenType) :
    (ctx.demandType type).Reports (Node.type type).Faults := by
  unfold demandType
  split
  · rename_i hc
    split <;> simp [faults_className? hc]
  · simp

/-- An initial value is blamed on a node in it or on its declaration. -/
theorem reports_initializer {P : Violation → Prop} (ctx : Context) (scope : Scope)
    (isFinal : Bool) (declared : Ty) {init : Expr} {blame : Rule → Violation}
    (hinit : ∀ v, (Node.expr init).Faults v → P v)
    (hblame : ∀ rule ∈ Rule.ofInits, P (blame rule)) :
    (ctx.initializer scope isFinal declared init blame).Reports P := by
  have hvalue := (ctx.faults_valueType scope init).mono hinit
  have hconstant : P (init.breaks .illegalConstantExpression) :=
    hinit _ (Node.faults_of_ofExprs (by decide))
  have hstmt := hblame .mismatchInStatement (by decide)
  have hfinal := hblame .mismatchInConstant (by decide)
  unfold initializer
  rw [reports_bind_iff]
  refine ⟨hvalue, ?_⟩
  cases ctx.table.compatible declared (ctx.valueType scope init).value <;> cases isFinal <;>
    cases init.firstNonConstant? <;> simp [hconstant, hstmt, hfinal]

end Context

/-! ## Statements -/

namespace Progress

/-- All violations so far are of one sort. -/
def Reports (P : Violation → Prop) (p : Progress) : Prop := ∀ v, .violation v ∈ p.events → P v

variable {P : Violation → Prop} {p : Progress}

/-- Events that are added report what they do. -/
@[simp] theorem reports_absorb_iff {α : Type} {c : Checked α} :
    (p.absorb c).Reports P ↔ p.Reports P ∧ c.Reports P := by
  simp only [Reports, Checked.Reports, absorb_events, List.mem_append, or_imp, forall_and]

/-- What is reported at the end holds of all that came before. -/
theorem Reports.of_grows {q : Progress} (h : q.Reports P) (hgrows : p.events <+: q.events) :
    p.Reports P := fun v hv => h v (hgrows.subset hv)

@[simp] private theorem reports_inScope_iff {f : Scope → Scope} :
    (p.inScope f).Reports P ↔ p.Reports P :=
  Iff.rfl

/-- A report adds its violation and no other. -/
@[simp] theorem reports_report_iff {v : Violation} :
    (p.report v).Reports P ↔ p.Reports P ∧ P v := by
  simp [report]

/-- A demand reports one violation at most. -/
theorem Reports.demand (hp : p.Reports P) {holds : Bool} {v : Violation} (hv : P v) :
    (p.demand holds v).Reports P := by
  cases holds <;> simp [Progress.demand, hp, hv]

/-- A declaration reports nothing: a name that is taken is only noted. -/
theorem Reports.define (hp : p.Reports P) (b : Binding) (span : Option Span) :
    (p.define b span).Reports P := by
  unfold Progress.define
  split
  · exact hp
  · simp [note, hp]

end Progress

namespace Context

section

variable {P : Violation → Prop} (ctx : Context) {stmt : Stmt} {p : Progress}

private theorem reports_value {e : Expr} (he : ∀ v, (Node.expr e).Faults v → P v)
    (hp : p.Reports P) : (p.absorb (ctx.valueType p.scope e)).Reports P :=
  Progress.reports_absorb_iff.mpr ⟨hp, (ctx.faults_valueType p.scope e).mono he⟩

variable (hrule : ∀ rule ∈ Rule.ofStmts, P (stmt.breaks rule))

include hrule

private theorem reports_localInit {isFinal : Bool} {declared : Ty} {d : Declarator}
    (hd : ∀ v, (Node.declarator d).Faults v → P v) (hp : p.Reports P) :
    (ctx.localInit isFinal declared stmt d p).Reports P := by
  unfold localInit
  split
  · rename_i init hinit
    refine Progress.reports_absorb_iff.mpr ⟨hp, ctx.reports_initializer _ _ _ (fun v hv => ?_) ?_⟩
    · exact hd v (Node.faults_of_child (by simp [Node.children, hinit]) hv)
    · exact fun rule h => hrule rule (Rule.mem_ofStmts h)
  · exact hp

/-- Local names are blamed on their declarators. -/
theorem reports_declareLocals {isFinal : Bool} {declared : Ty} (ds : List Declarator)
    (hds : ∀ d ∈ ds, ∀ v, (Node.declarator d).Faults v → P v) (hp : p.Reports P) :
    (ctx.declareLocals isFinal declared stmt ds p).Reports P := by
  induction ds generalizing p with
  | nil => exact hp
  | cons d ds ih =>
    obtain ⟨hd, hds⟩ := List.forall_mem_cons.mp hds
    rw [declareLocals]
    split
    · exact Progress.reports_report_iff.mpr ⟨hp, hd _ (Node.Blamed.declarator d _).faults⟩
    · exact ih hds ((ctx.reports_localInit hrule hd hp).define _ _)

private theorem reports_writeName {name : String} {span : Span}
    (hname : P (.broken .undeclaredIdentifier name span)) (hp : p.Reports P) :
    (ctx.writeName stmt name span p).2.Reports P := by
  have hconstant := hrule .cannotAssignToConstant (by decide)
  have hmismatch := hrule .mismatchInStatement (by decide)
  unfold writeName
  split
  · dsimp only
    split <;> simp [hp, hconstant]
  · split
    · exact hp.demand hconstant
    · split <;> simp [hp, hmismatch, hname]

private theorem reports_writeAttribute {object : Expr} {name owner : String} {info : AttributeInfo}
    (hp : p.Reports P) : (ctx.writeAttribute stmt object name owner info p).Reports P := by
  unfold writeAttribute
  split
  · split
    · exact hp
    · exact Progress.reports_report_iff.mpr ⟨hp, hrule _ (by decide)⟩
  · exact hp

/-- A place to write to is blamed on a node in it or on the statement. -/
theorem reports_target {place : Expr} (hplace : ∀ v, (Node.expr place).Faults v → P v)
    (hp : p.Reports P) : (ctx.target stmt place p).2.Reports P := by
  unfold target
  split
  · rename_i name span
    exact ctx.reports_writeName hrule (hplace _ (Node.Blamed.ident name span).faults) hp
  · rename_i object name span
    have hobject : ∀ v, (Node.expr object).Faults v → P v := fun v hv =>
      hplace v (Node.faults_of_child (by simp [Node.children, Expr.children]) hv)
    have hattribute := ctx.reports_attribute?
      (fun _ h => hplace _ (Node.faults_of_ofExprs h))
      (hplace _ (Node.Blamed.field object name span).faults) (ctx.valueType p.scope object).value
    have habsorbed := Progress.reports_absorb_iff.mpr ⟨ctx.reports_value hobject hp, hattribute⟩
    dsimp only [withValue]
    split
    · exact ctx.reports_writeAttribute hrule habsorbed
    · exact habsorbed
  · exact ctx.reports_value hplace hp

private theorem reports_assignment {place value : Expr}
    (hplace : ∀ v, (Node.expr place).Faults v → P v)
    (hvalue : ∀ v, (Node.expr value).Faults v → P v) (hp : p.Reports P) :
    (ctx.assignment place value stmt p).Reports P := by
  have htarget := ctx.reports_target hrule hplace (ctx.reports_value hvalue hp)
  dsimp only [assignment, withValue]
  split
  · rename_i heq
    rw [heq] at htarget
    exact htarget.demand (hrule _ (by decide))
  · rename_i heq
    rwa [heq] at htarget

private theorem reports_condition {e : Expr} (he : ∀ v, (Node.expr e).Faults v → P v)
    (hp : p.Reports P) : (ctx.condition e stmt p).Reports P :=
  (ctx.reports_value he hp).demand (hrule _ (by decide))

private theorem reports_counter {id : Ident} (hp : p.Reports P) :
    (ctx.counter id stmt p).Reports P := by
  unfold counter
  split
  · exact (hp.demand (hrule _ (by decide))).demand (hrule _ (by decide))
  · exact hp.define _ _

private theorem reports_loopHead {id : Ident} {first last : Expr}
    (hfirst : ∀ v, (Node.expr first).Faults v → P v)
    (hlast : ∀ v, (Node.expr last).Faults v → P v) (hp : p.Reports P) :
    (ctx.loopHead id first last stmt p).Reports P := by
  have hcounter : (ctx.counter id stmt (p.inScope .push)).Reports P := ctx.reports_counter hrule hp
  have hbounds := ctx.reports_value hlast (ctx.reports_value hfirst hcounter)
  exact hbounds.demand (hrule _ (by decide))

private theorem reports_returned {value : Option Expr}
    (hvalue : ∀ e ∈ value, ∀ v, (Node.expr e).Faults v → P v) (hp : p.Reports P) :
    (ctx.returned value stmt p).Reports P := by
  cases value with
  | none => exact hp.demand (hrule _ (by decide))
  | some e => exact (ctx.reports_value (hvalue e rfl) hp).demand (hrule _ (by decide))

end

mutual

/-- Whatever comes up in the check of a statement is blamed on a node in it. -/
theorem reports_statement {P : Violation → Prop} (ctx : Context) (s : Stmt) {p : Progress}
    (hs : ∀ v, (Node.stmt s).Faults v → P v) (hp : p.Reports P) :
    (ctx.statement s p).Reports P := by
  have hrule : ∀ rule ∈ Rule.ofStmts, P (s.breaks rule) := fun rule h =>
    hs _ (Node.Blamed.stmt h).faults
  have hchild : ∀ k ∈ s.children, ∀ v, k.Faults v → P v := fun k hk v hv =>
    hs v (Node.faults_of_child hk hv)
  cases h : ctx.halts p with
  | true => rwa [statement_of_halts h]
  | false =>
    cases s with
    | declare isFinal type ds span =>
      rw [statement_declare h]
      refine ctx.reports_declareLocals hrule ds (fun d hd => hchild _ ?_) ?_
      · exact List.mem_cons_of_mem _ (List.mem_map_of_mem hd)
      · exact Progress.reports_absorb_iff.mpr
          ⟨hp, (ctx.faults_demandType type).mono (hchild _ List.mem_cons_self)⟩
    | assign place value span =>
      rw [statement_assign h]
      exact ctx.reports_assignment hrule (hchild _ (by simp [Stmt.children]))
        (hchild _ (by simp [Stmt.children])) hp
    | ifThen cond thenBranch span =>
      rw [statement_ifThen h]
      exact reports_nested ctx thenBranch (hchild _ (by simp [Stmt.children]))
        (ctx.reports_condition hrule (hchild _ (by simp [Stmt.children])) hp)
    | ifElse cond thenBranch elseBranch span =>
      rw [statement_ifElse h]
      exact reports_nested ctx elseBranch (hchild _ (by simp [Stmt.children]))
        (reports_nested ctx thenBranch (hchild _ (by simp [Stmt.children]))
          (ctx.reports_condition hrule (hchild _ (by simp [Stmt.children])) hp))
    | loop id first last direction body span =>
      rw [statement_loop h]
      exact reports_nested ctx body (p := (ctx.loopHead _ _ _ _ p).inScope .enterLoop)
        (hchild _ (by simp [Stmt.children]))
        (ctx.reports_loopHead hrule (hchild _ (by simp [Stmt.children]))
          (hchild _ (by simp [Stmt.children])) hp)
    | breakLoop span =>
      rw [statement_breakLoop h]
      exact hp.demand (hrule _ (by decide))
    | continueLoop span =>
      rw [statement_continueLoop h]
      exact hp.demand (hrule _ (by decide))
    | returnValue value span =>
      rw [statement_returnValue h]
      refine ctx.reports_returned hrule (fun e he => hchild _ ?_) hp
      exact List.mem_map_of_mem (Option.mem_toList.mpr he)
    | call invocation span =>
      rw [statement_call h]
      exact Progress.reports_absorb_iff.mpr
        ⟨hp, (ctx.faults_exprType _ invocation).mono (hchild _ List.mem_cons_self)⟩
    | block stmts span =>
      rw [statement_block h]
      exact reports_statements ctx stmts (p := p.inScope .push)
        (fun s hs => hchild _ (List.mem_map_of_mem hs)) hp
termination_by (sizeOf s, 0)

private theorem reports_nested {P : Violation → Prop} (ctx : Context) (s : Stmt) {p : Progress}
    (hs : ∀ v, (Node.stmt s).Faults v → P v) (hp : p.Reports P) : (ctx.nested s p).Reports P :=
  reports_statement ctx s (p := p.inScope .push) hs hp
termination_by (sizeOf s, 1)

/-- Statements in order are blamed one by one. -/
theorem reports_statements {P : Violation → Prop} (ctx : Context) (ss : List Stmt) {p : Progress}
    (hss : ∀ s ∈ ss, ∀ v, (Node.stmt s).Faults v → P v) (hp : p.Reports P) :
    (ctx.statements ss p).Reports P := by
  cases ss with
  | nil => rwa [statements_nil]
  | cons s ss =>
    obtain ⟨hs, hss⟩ := List.forall_mem_cons.mp hss
    rw [statements_cons]
    exact reports_statements ctx ss hss (reports_statement ctx s hs hp)
termination_by (sizeOf ss, 0)

end

/-! ## Members -/

/-- Initial values of attributes are blamed on their declarators or on the declaration. -/
theorem reports_attributeInits {P : Violation → Prop} (ctx : Context) {decl : AttributeDecl}
    (ds : List Declarator)
    (hds : ∀ d ∈ ds, (∀ v, (Node.declarator d).Faults v → P v) ∧
      ∀ rule ∈ Rule.ofInits, P (.broken rule decl.render d.span))
    {p : Progress} (hp : p.Reports P) : (ctx.attributeInits decl ds p).Reports P := by
  induction ds generalizing p with
  | nil => exact hp
  | cons d ds ih =>
    obtain ⟨⟨hd, hrule⟩, hds⟩ := List.forall_mem_cons.mp hds
    rw [attributeInits]
    refine ih hds ?_
    split
    · rename_i init hinit
      refine Progress.reports_absorb_iff.mpr
        ⟨hp, ctx.reports_initializer _ _ _ (fun v hv => ?_) hrule⟩
      exact hd v (Node.faults_of_child (by simp [Node.children, hinit]) hv)
    · exact hp

/-- Parameters are blamed on their types and names. -/
theorem reports_declareParams {P : Violation → Prop} (ctx : Context) (params : List Param)
    (hparams : ∀ param ∈ params, (∀ v, (Node.type param.type).Faults v → P v) ∧
      ∀ v, (Node.name param.ident).Faults v → P v)
    {p : Progress} (hp : p.Reports P) : (ctx.declareParams params p).Reports P := by
  induction params generalizing p with
  | nil => exact hp
  | cons param params ih =>
    obtain ⟨⟨htype, hname⟩, hparams⟩ := List.forall_mem_cons.mp hparams
    have habsorbed : (p.absorb (ctx.demandType param.type)).Reports P :=
      Progress.reports_absorb_iff.mpr ⟨hp, (ctx.faults_demandType param.type).mono htype⟩
    rw [declareParams]
    refine ih hparams ?_
    split
    · exact habsorbed
    · exact Progress.reports_report_iff.mpr
        ⟨habsorbed, hname _ (Node.Blamed.name param.ident .parameter).faults⟩

private theorem reports_body {P : Violation → Prop} (ctx : Context) {params : List Param}
    {b : Block} (hparams : ∀ param ∈ params, (∀ v, (Node.type param.type).Faults v → P v) ∧
      ∀ v, (Node.name param.ident).Faults v → P v)
    (hbody : ∀ v, (Node.block b).Faults v → P v) {p : Progress} (hp : p.Reports P) :
    (ctx.body params b p).Reports P := by
  refine ctx.reports_statements b.stmts (fun s hs v hv => ?_)
    (ctx.reports_declareParams params hparams (p := p.inScope .push) hp)
  exact hbody v (Node.faults_of_child (List.mem_map_of_mem hs) hv)

/-- Whatever comes up in the check of a member is blamed on a node in it. -/
theorem reports_member {P : Violation → Prop} (ctx : Context) (m : Member)
    (hm : ∀ v, (Node.member m).Faults v → P v) {p : Progress} (hp : p.Reports P) :
    (ctx.member m p).Reports P := by
  have hchild : ∀ k ∈ m.children, ∀ v, k.Faults v → P v := fun k hk v hv =>
    hm v (Node.faults_of_child hk hv)
  have hparams : ∀ param ∈ m.params, ∀ v, (Node.type param.type).Faults v → P v :=
    fun param hparam v hv => hm v (Node.faults_of_aside (List.mem_map_of_mem hparam) hv)
  have hmisnamed := hm _ (Node.Blamed.misnamed m).faults
  have hfresh : ({ p with assigned := [] } : Progress).Reports P := hp
  rcases m with ⟨decl, span⟩ | ⟨decl, span⟩ | ⟨decl, span⟩ | ⟨decl, span⟩
  · refine reports_attributeInits _ decl.declarators (fun d hd => ⟨hchild _ ?_, ?_⟩)
      (Progress.reports_absorb_iff.mpr ⟨hfresh, (faults_demandType _ decl.type).mono (hchild _ ?_)⟩)
    · exact List.mem_cons_of_mem _ (List.mem_map_of_mem hd)
    · exact fun rule h => hm _ (Node.Blamed.init hd h).faults
    · exact List.mem_cons_self
  · refine reports_body _ (fun param hparam => ⟨hparams param hparam, hchild _ ?_⟩)
      (hchild _ (by simp [Member.children])) ?_
    · simp only [Member.children, List.mem_append, List.mem_map]
      exact .inl (.inr ⟨param, hparam, rfl⟩)
    · split
      · rename_i type htype
        have hresult := (ctx.faults_demandType type).mono
          (hchild _ (by simp [Member.children, htype]))
        exact Progress.reports_absorb_iff.mpr ⟨hfresh, hresult⟩
      · exact hfresh
  · refine reports_body _ (fun param hparam => ⟨hparams param hparam, hchild _ ?_⟩)
      (hchild _ (by simp [Member.children])) (hfresh.demand hmisnamed)
    exact List.mem_append_left _ (List.mem_map.mpr ⟨param, hparam, rfl⟩)
  · exact reports_body _ (List.forall_mem_nil _) (hchild _ (by simp [Member.children]))
      (hfresh.demand hmisnamed)

/-- Members in order are blamed one by one. -/
theorem reports_members {P : Violation → Prop} (ctx : Context) (ms : List Member)
    (hms : ∀ m ∈ ms, ∀ v, (Node.member m).Faults v → P v) {p : Progress} (hp : p.Reports P) :
    (ctx.members ms p).Reports P := by
  induction ms generalizing p with
  | nil => exact hp
  | cons m ms ih =>
    obtain ⟨hm, hms⟩ := List.forall_mem_cons.mp hms
    rw [members]
    split
    · exact hp
    · exact ih hms (ctx.reports_member m hm hp)

end Context

/-! ## Programs -/

/-- A violation is blamed on a node of a program. -/
def Program.Faults (p : Program) (v : Violation) : Prop :=
  ∃ c ∈ p.classes, (Node.classDecl c).Faults v

/-- No node of a program is at fault for a missing method to start with. -/
theorem Program.Faults.ne_noEntryPoint {p : Program} {v : Violation} (h : p.Faults v) :
    v ≠ .noEntryPoint := by
  obtain ⟨c, -, n, -, hblamed⟩ := h
  exact hblamed.ne_noEntryPoint

/-- A computation in two steps fails in the first or in the second. -/
theorem bind_eq_error_iff {ε α β : Type} {x : Except ε α} {f : α → Except ε β} {e : ε} :
    x >>= f = .error e ↔ x = .error e ∨ ∃ a, x = .ok a ∧ f a = .error e := by
  cases x with
  | error e' => simp [bind, Except.bind]
  | ok a => simp [bind, Except.bind]

namespace ClassTable

/-- Classes in order are blamed one by one. -/
theorem reports_checkClasses {P : Violation → Prop} (t : ClassTable) (walk : Walk)
    (cs : List ClassDecl) (hcs : ∀ c ∈ cs, ∀ v, (Node.classDecl c).Faults v → P v)
    {p : Progress} (hp : p.Reports P) : (t.checkClasses walk cs p).Reports P := by
  induction cs generalizing p with
  | nil => exact hp
  | cons c cs ih =>
    obtain ⟨hc, hcs⟩ := List.forall_mem_cons.mp hcs
    rw [checkClasses]
    split
    · exact hp
    · refine ih hcs (Context.reports_members _ _ (fun m hm v hv => ?_) ?_)
      · exact hc v (Node.faults_of_child (by simp [Node.children, hm]) hv)
      · simp [Progress.note, hp]

/-- Whatever the check of members reports is blamed on a node of the program. -/
theorem faults_of_traverse {t : ClassTable} {walk : Walk} {p : Program} {v : Violation}
    (h : v ∈ Event.violations (t.traverse walk p)) : p.Faults v := by
  have hstart : Progress.start.Reports p.Faults := fun v hv => nomatch hv
  refine t.reports_checkClasses walk p.classes (fun c hc v hv => ⟨c, hc, hv⟩) hstart v ?_
  exact Event.mem_violations_iff.mp h

/-- A class that is declared twice is one of the classes. -/
theorem repeated?_mem {seen : List String} {cs : List ClassDecl} {c : ClassDecl}
    (h : repeated? seen cs = some c) : c ∈ cs := by
  induction cs generalizing seen with
  | nil => cases h
  | cons d cs ih =>
    rw [repeated?] at h
    split at h
    · cases h
      exact List.mem_cons_self
    · exact List.mem_cons_of_mem _ (ih h)

/-- A name can only be declared twice, whatever it is declared as. -/
theorem eq_of_redeclared {α : Type} {subject : String} {span : Span}
    {added : Except Declared α} {v : Violation} (h : redeclared subject span added = .error v) :
    ∃ what, v = .broken (.redeclared what) subject span := by
  cases added with
  | ok a => cases h
  | error what => exact ⟨what, (Except.error.inj h).symm⟩

private theorem faults_of_declareAttributes {P : Violation → Prop} {decl : AttributeDecl}
    (ds : List Declarator) (hds : ∀ d ∈ ds, ∀ v, (Node.declarator d).Faults v → P v)
    {e : ClassEntry} {v : Violation} (h : declareAttributes decl ds e = .error v) : P v := by
  induction ds generalizing e with
  | nil => cases h
  | cons d ds ih =>
    obtain ⟨hd, hds⟩ := List.forall_mem_cons.mp hds
    rw [declareAttributes] at h
    rcases bind_eq_error_iff.mp h with hfirst | ⟨e', -, hrest⟩
    · obtain ⟨what, rfl⟩ := eq_of_redeclared hfirst
      exact hd _ (Node.Blamed.declarator d what).faults
    · exact ih hds hrest

/-- A member that cannot be declared is at fault. -/
theorem faults_of_declareMember {m : Member} {e : ClassEntry} {v : Violation}
    (h : declareMember m e = .error v) : (Node.member m).Faults v := by
  rcases m with ⟨decl, span⟩ | ⟨decl, span⟩ | ⟨decl, span⟩ | ⟨decl, span⟩
  · refine faults_of_declareAttributes decl.declarators (fun d hd v hv => ?_) h
    exact Node.faults_of_child (List.mem_cons_of_mem _ (List.mem_map_of_mem hd)) hv
  all_goals
    obtain ⟨what, rfl⟩ := eq_of_redeclared h
    exact (Node.Blamed.member what rfl).faults

private theorem faults_of_declareMembers {P : Violation → Prop} (ms : List Member)
    (hms : ∀ m ∈ ms, ∀ v, (Node.member m).Faults v → P v)
    {e : ClassEntry} {v : Violation} (h : declareMembers ms e = .error v) : P v := by
  induction ms generalizing e with
  | nil => cases h
  | cons m ms ih =>
    obtain ⟨hm, hms⟩ := List.forall_mem_cons.mp hms
    rw [declareMembers] at h
    rcases bind_eq_error_iff.mp h with hfirst | ⟨e', -, hrest⟩
    · exact hm v (faults_of_declareMember hfirst)
    · exact ih hms hrest

/-- A class that cannot be declared is at fault. -/
theorem faults_of_declareClass {known : List String} {c : ClassDecl} {v : Violation}
    (h : declareClass known c = .error v) : (Node.classDecl c).Faults v := by
  have hmembers : ∀ e, declareMembers c.members e = .error v → (Node.classDecl c).Faults v := by
    intro e he
    refine faults_of_declareMembers c.members (fun m hm v hv => ?_) he
    exact Node.faults_of_child (by simp [Node.children, hm]) hv
  unfold declareClass at h
  split at h
  · rename_i parent hparent
    split at h
    · exact hmembers _ h
    · obtain rfl := Except.error.inj h
      exact Node.faults_of_child (by simp [Node.children, hparent])
        (Node.Blamed.parent parent).faults
  · exact hmembers _ h

private theorem faults_of_declareClasses {P : Violation → Prop} {known : List String}
    (cs : List ClassDecl) (hcs : ∀ c ∈ cs, ∀ v, (Node.classDecl c).Faults v → P v)
    {v : Violation} (h : declareClasses known cs = .error v) : P v := by
  induction cs with
  | nil => cases h
  | cons c cs ih =>
    obtain ⟨hc, hcs⟩ := List.forall_mem_cons.mp hcs
    rw [declareClasses] at h
    rcases bind_eq_error_iff.mp h with hfirst | ⟨e, -, h⟩
    · exact hc v (faults_of_declareClass hfirst)
    · rcases bind_eq_error_iff.mp h with hrest | ⟨es, -, hpure⟩
      · exact ih hcs hrest
      · cases hpure

/-- Whatever stands in the way of a class table is blamed on a node of the program. -/
theorem faults_of_build {p : Program} {v : Violation} (h : build p = .error v) : p.Faults v := by
  unfold build at h
  split at h
  · rename_i c hc
    obtain rfl := Except.error.inj h
    have hname := (Node.Blamed.name c.name .classType).faults
    exact ⟨c, repeated?_mem hc, Node.faults_of_child (by simp [Node.children]) hname⟩
  · rcases bind_eq_error_iff.mp h with hclasses | ⟨entries, -, hpure⟩
    · exact faults_of_declareClasses p.classes (fun c hc v hv => ⟨c, hc, hv⟩) hclasses
    · cases hpure

end ClassTable

/-- The violation that a program is rejected for is blamed on one of its nodes, unless it is that
the program cannot start. -/
theorem Program.faults_of_check {p : Program} {v : Violation} (h : p.check = .error v)
    (hv : v ≠ .noEntryPoint) : p.Faults v := by
  cases hb : ClassTable.build p with
  | error w =>
    obtain rfl := Except.error.inj ((check_of_build_error hb).symm.trans h)
    exact ClassTable.faults_of_build hb
  | ok t =>
    rw [check_of_build_ok hb, t.answer_eq_error_iff _ hv] at h
    exact ClassTable.faults_of_traverse h.mem

end ClassCheck
