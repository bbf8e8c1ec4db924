import ClassCheck.Checker.Program
import ClassCheck.Parser.Basic

/-!
# Trees without spans

Every tree, token and error can be stripped of its spans, which puts all of it nowhere. Two
trees are equal up to spans if they are equal once stripped. Nothing that is written out, and
nothing that a name, a type or the priority of a violation depends on, is lost on the way.
-/

namespace ClassCheck

/-- The span of what has been stripped of its place. -/
def Span.nowhere : Span := ⟨0, 0⟩

@[simp] private theorem Span.merge_nowhere : Span.nowhere.merge .nowhere = .nowhere := rfl

/-! ## Stripping -/

/-- The token without its span. -/
def Token.spanless (t : Token) : Token := ⟨t.kind, .nowhere⟩

/-- The name without its span. -/
def Ident.spanless (id : Ident) : Ident := ⟨id.name, .nowhere⟩

/-- The written type without spans. -/
def WrittenType.spanless : WrittenType → WrittenType
  | .primitive type _ => .primitive type .nowhere
  | .named name _ => .named name .nowhere
  | .array element size _ => .array element.spanless size .nowhere
  | .reference referent _ => .reference referent.spanless .nowhere

/-- A stripped type stands nowhere. -/
@[simp] theorem WrittenType.span_spanless (type : WrittenType) :
    type.spanless.span = .nowhere := by
  cases type <;> rfl

namespace Expr

mutual

/-- The expression without spans. -/
def spanless : Expr → Expr
  | .int value _ => .int value .nowhere
  | .float value _ => .float value .nowhere
  | .bool value _ => .bool value .nowhere
  | .string value _ => .string value .nowhere
  | .nil _ => .nil .nowhere
  | .self _ => .self .nowhere
  | .ident name _ => .ident name .nowhere
  | .binary op left right _ => .binary op left.spanless right.spanless .nowhere
  | .unary op operand _ => .unary op operand.spanless .nowhere
  | .field object name _ => .field object.spanless name .nowhere
  | .call receiver method args _ =>
    .call receiver.spanless method (spanlessAll args) .nowhere
  | .index object position _ => .index object.spanless position.spanless .nowhere
  | .create className args _ => .create className (spanlessAll args) .nowhere
  | .array elements _ => .array (spanlessAll elements) .nowhere
  | .paren inner _ => .paren inner.spanless .nowhere

/-- The expressions without spans. -/
def spanlessAll : List Expr → List Expr
  | [] => []
  | e :: es => e.spanless :: spanlessAll es

end

/-- Expressions in order are stripped one by one. -/
theorem spanlessAll_eq_map (es : List Expr) : spanlessAll es = es.map spanless := by
  induction es with
  | nil => rfl
  | cons e es ih => rw [spanlessAll, ih, List.map_cons]

/-- A stripped expression stands nowhere. -/
@[simp] theorem span_spanless (e : Expr) : e.spanless.span = .nowhere := by
  cases e <;> rfl

/-- A place to write to is one without spans, too. -/
@[simp] theorem isPlace_spanless (e : Expr) : e.spanless.isPlace = e.isPlace := by
  cases e <;> rfl

/-- So is a call. -/
@[simp] theorem isCall_spanless (e : Expr) : e.spanless.isCall = e.isCall := by
  cases e <;> rfl

end Expr

/-- The declared name without spans. -/
def Declarator.spanless (d : Declarator) : Declarator :=
  ⟨d.name, d.init.map Expr.spanless, .nowhere⟩

namespace Stmt

mutual

/-- The statement without spans. -/
def spanless : Stmt → Stmt
  | .declare isFinal type ds _ =>
    .declare isFinal type.spanless (ds.map Declarator.spanless) .nowhere
  | .assign target value _ => .assign target.spanless value.spanless .nowhere
  | .ifThen condition thenBranch _ => .ifThen condition.spanless thenBranch.spanless .nowhere
  | .ifElse condition thenBranch elseBranch _ =>
    .ifElse condition.spanless thenBranch.spanless elseBranch.spanless .nowhere
  | .loop counter first last direction body _ =>
    .loop counter.spanless first.spanless last.spanless direction body.spanless .nowhere
  | .breakLoop _ => .breakLoop .nowhere
  | .continueLoop _ => .continueLoop .nowhere
  | .returnValue value _ => .returnValue (value.map Expr.spanless) .nowhere
  | .call invocation _ => .call invocation.spanless .nowhere
  | .block stmts _ => .block (spanlessAll stmts) .nowhere

/-- The statements without spans. -/
def spanlessAll : List Stmt → List Stmt
  | [] => []
  | s :: ss => s.spanless :: spanlessAll ss

end

/-- Statements in order are stripped one by one. -/
theorem spanlessAll_eq_map (ss : List Stmt) : spanlessAll ss = ss.map spanless := by
  induction ss with
  | nil => rfl
  | cons s ss ih => rw [spanlessAll, ih, List.map_cons]

/-- A stripped statement stands nowhere. -/
@[simp] theorem span_spanless (s : Stmt) : s.spanless.span = .nowhere := by
  cases s <;> rfl

end Stmt

/-- The body without spans. -/
def Block.spanless (b : Block) : Block := ⟨b.stmts.map Stmt.spanless, .nowhere⟩

/-- The parameter without spans. -/
def Param.spanless (p : Param) : Param := ⟨p.name, p.type.spanless, .nowhere⟩

/-- The attributes without spans. -/
def AttributeDecl.spanless (a : AttributeDecl) : AttributeDecl :=
  { a with type := a.type.spanless, declarators := a.declarators.map Declarator.spanless }

/-- The method without spans. -/
def MethodDecl.spanless (m : MethodDecl) : MethodDecl :=
  { m with
    result := m.result.map WrittenType.spanless
    params := m.params.map Param.spanless
    body := m.body.spanless }

/-- The constructor without spans. -/
def CtorDecl.spanless (c : CtorDecl) : CtorDecl :=
  { c with params := c.params.map Param.spanless, body := c.body.spanless }

/-- The destructor without spans. -/
def DtorDecl.spanless (d : DtorDecl) : DtorDecl := { d with body := d.body.spanless }

/-- The member without spans. -/
def Member.spanless : Member → Member
  | .attribute decl _ => .attribute decl.spanless .nowhere
  | .method decl _ => .method decl.spanless .nowhere
  | .ctor decl _ => .ctor decl.spanless .nowhere
  | .dtor decl _ => .dtor decl.spanless .nowhere

/-- A stripped member stands nowhere. -/
@[simp] theorem Member.span_spanless (m : Member) : m.spanless.span = .nowhere := by
  cases m <;> rfl

/-- The class without spans. -/
def ClassDecl.spanless (c : ClassDecl) : ClassDecl :=
  ⟨c.name.spanless, c.parent.map Ident.spanless, c.members.map Member.spanless, .nowhere⟩

/-- The program without spans. -/
def Program.spanless (p : Program) : Program := ⟨p.classes.map ClassDecl.spanless, .nowhere⟩

/-- The cursor without spans. -/
def Cursor.spanless (c : Cursor) : Cursor :=
  ⟨c.tokens.map Token.spanless, .nowhere, .nowhere⟩

/-- The error without its span. -/
def SyntaxError.spanless (e : SyntaxError) : SyntaxError := ⟨e.fault, .nowhere⟩

/-- The rejection without spans. -/
def Rejection.spanless (r : Rejection) : Rejection := ⟨r.error.spanless, r.cursor.spanless⟩

/-- The violation without its span. -/
def Violation.spanless : Violation → Violation
  | .broken rule subject _ => .broken rule subject .nowhere
  | .noEntryPoint => .noEntryPoint

/-- How grave a violation is does not depend on its span. -/
@[simp] theorem Violation.priority_spanless (v : Violation) : v.spanless.priority = v.priority := by
  cases v <;> rfl

/-- Nor does its kind. -/
theorem Violation.kindName_spanless (v : Violation) : v.spanless.kindName = v.kindName := by
  cases v <;> rfl

/-- Nor does its message. -/
theorem Violation.message_spanless (v : Violation) : v.spanless.message = v.message := by
  cases v with
  | broken rule subject span => cases rule <;> rfl
  | noEntryPoint => rfl

/-- The event without its span. -/
def Event.spanless : Event → Event
  | .violation v => .violation v.spanless
  | .duplicate name span => .duplicate name (span.map fun _ => .nowhere)
  | event => event

@[simp] private theorem Event.isDecisive_spanless (e : Event) :
    e.spanless.isDecisive = e.isDecisive := by
  cases e <;> simp [spanless, isDecisive, Violation.isDecisive]

/-! ## What is written out -/

/-- The class that a type names is stripped with it. -/
theorem WrittenType.className?_spanless (type : WrittenType) :
    type.spanless.className? = type.className?.map Ident.spanless := by
  induction type with
  | primitive | named => rfl
  | array _ _ _ ih | reference _ _ ih => exact ih

/-- A written type means the same without spans. -/
@[simp] theorem Ty.ofWritten_spanless (type : WrittenType) :
    ofWritten type.spanless = ofWritten type := by
  induction type with
  | primitive | named => rfl
  | array _ size _ ih => exact congrArg (Ty.array · size) ih
  | reference _ _ ih => exact congrArg Ty.reference ih

/-- So does a result, if there is one. -/
theorem Ty.map_ofWritten_spanless (type : Option WrittenType) :
    (type.map WrittenType.spanless).map ofWritten = type.map ofWritten := by
  cases type <;> simp

/-- A written type is rendered the same without spans. -/
@[simp] theorem WrittenType.render_spanless (type : WrittenType) :
    type.spanless.render = type.render := by
  induction type <;> simp_all [spanless, render]

namespace Expr

mutual

/-- So is an expression. -/
@[simp] theorem render_spanless (e : Expr) : e.spanless.render = e.render := by
  match e with
  | .int .. | .float .. | .bool .. | .string .. | .nil _ | .self _ | .ident .. => rfl
  | .binary op left right _ =>
    rw [spanless, render, render, left.render_spanless, right.render_spanless]
  | .unary op operand _ => rw [spanless, render, render, operand.render_spanless]
  | .field object name _ => rw [spanless, render, render, object.render_spanless]
  | .call receiver method args _ =>
    rw [spanless, render, render, receiver.render_spanless, renderAll_spanless args]
  | .index object position _ =>
    rw [spanless, render, render, object.render_spanless, position.render_spanless]
  | .create className args _ => rw [spanless, render, render, renderAll_spanless args]
  | .array elements _ => rw [spanless, render, render, renderAll_spanless elements]
  | .paren inner _ => rw [spanless, render, render, inner.render_spanless]

private theorem renderAll_spanless (es : List Expr) :
    renderAll (spanlessAll es) = renderAll es := by
  match es with
  | [] => rfl
  | e :: es => rw [spanlessAll, renderAll, renderAll, e.render_spanless, renderAll_spanless es]

end

end Expr

/-- So is a declared name. -/
@[simp] theorem Declarator.render_spanless (d : Declarator) : d.spanless.render = d.render := by
  cases hd : d.init <;> simp [spanless, render, hd]

@[simp] private theorem Declarator.renderAll_spanless (ds : List Declarator) :
    renderAll (ds.map spanless) = renderAll ds := by
  simp [renderAll, Function.comp_def]

namespace Stmt

mutual

/-- So is a statement. -/
@[simp] theorem render_spanless (s : Stmt) : s.spanless.render = s.render := by
  match s with
  | .declare .. | .assign .. | .breakLoop _ | .continueLoop _ | .call .. => simp [spanless, render]
  | .returnValue none _ => rfl
  | .returnValue (some value) _ => simp [spanless, render]
  | .ifThen condition thenBranch _ => simp [spanless, render, thenBranch.render_spanless]
  | .ifElse condition thenBranch elseBranch _ =>
    simp [spanless, render, thenBranch.render_spanless, elseBranch.render_spanless]
  | .loop counter first last direction body _ =>
    simp [spanless, render, Ident.spanless, body.render_spanless]
  | .block stmts _ => rw [spanless, render, render, renderBlock_spanless stmts]

private theorem renderBlock_spanless (ss : List Stmt) :
    renderBlock (spanlessAll ss) = renderBlock ss := by
  match ss with
  | [] => rfl
  | s :: ss =>
    rw [spanlessAll, renderBlock, renderBlock, s.render_spanless, renderItems_spanless ss]

private theorem renderItems_spanless (ss : List Stmt) :
    renderItems (spanlessAll ss) = renderItems ss := by
  match ss with
  | [] => rfl
  | s :: ss =>
    rw [spanlessAll, renderItems, renderItems, s.render_spanless, renderItems_spanless ss]

end

end Stmt

/-- So is a block. -/
@[simp] theorem Block.render_spanless (b : Block) : b.spanless.render = b.render := by
  rw [spanless, render, ← Stmt.spanlessAll_eq_map, Stmt.renderBlock_spanless, render]

/-- So is a parameter. -/
@[simp] theorem Param.render_spanless (p : Param) : p.spanless.render = p.render := by
  rw [spanless, render, WrittenType.render_spanless, render]

@[simp] private theorem Param.renderAll_spanless (ps : List Param) :
    renderAll (ps.map spanless) = renderAll ps := by
  simp [renderAll, Function.comp_def]

/-- So are attributes. -/
@[simp] theorem AttributeDecl.render_spanless (a : AttributeDecl) :
    a.spanless.render = a.render := by
  rw [spanless, render, WrittenType.render_spanless, Declarator.renderAll_spanless, render]

/-- So is a member. -/
@[simp] theorem Member.render_spanless (m : Member) : m.spanless.render = m.render := by
  match m with
  | .attribute decl _ => exact decl.render_spanless
  | .method decl _ =>
    cases hr : decl.result <;> simp [spanless, render, MethodDecl.spanless, MethodDecl.render, hr]
  | .ctor decl _ => simp [spanless, render, CtorDecl.spanless, CtorDecl.render]
  | .dtor decl _ => simp [spanless, render, DtorDecl.spanless, DtorDecl.render]

end ClassCheck
