import ClassCheck.Proofs.Independence

/-!
# What a check does to the local names

The check of an expression only adds events. That of a statement leaves the frames and their loops
as they are: values are stored under names, and a declaration adds its names to the innermost
frame, up to the first that the frame has already. It never tries to declare that name, nor does a
loop declare a counter that its frame has, so no declaration of a local name ever fails. What the
statements of a class do is gone after the class.
-/

namespace ClassCheck

/-! ## Expressions declare nothing -/

namespace Checked

/-- No declaration fails in a check. -/
def Quiet {α : Type} (c : Checked α) : Prop := ∀ name span, .duplicate name span ∉ c.events

section

variable {α β : Type}

@[simp] private theorem quiet_pure (a : α) : (pure a : Checked α).Quiet := by
  simp [Quiet]

/-- Two checks in a row are quiet just if both are. -/
@[simp] theorem quiet_bind_iff {c : Checked α} {f : α → Checked β} :
    (c >>= f).Quiet ↔ c.Quiet ∧ (f c.value).Quiet := by
  simp only [Quiet, bind_events, List.mem_append, not_or, forall_and]

@[simp] private theorem quiet_report (v : Violation) : (report v).Quiet := by
  simp [Quiet, report, note]

@[simp] private theorem quiet_poison (e : Expr) (rule : Rule) : (poison e rule).Quiet := by
  simp [poison]

@[simp] private theorem quiet_orMismatch (e : Expr) (o : Option ExprTy) :
    (orMismatch e o).Quiet := by
  cases o <;> simp [orMismatch]

/-- Asking for a value is quiet if the check of it is. -/
theorem Quiet.demandValue {c : Checked ExprTy} (h : c.Quiet) (e : Expr) :
    (demandValue e c).Quiet := by
  rw [Checked.demandValue, quiet_bind_iff]
  refine ⟨h, ?_⟩
  cases c.value <;> simp

end

end Checked

namespace Context

open Checked

section

variable (ctx : Context)

@[simp] private theorem quiet_selfType (e : Expr) : (ctx.selfType e).Quiet := by
  unfold selfType
  split <;> simp

@[simp] private theorem quiet_readLocal (b : Binding) : (readLocal b).Quiet := by
  unfold readLocal
  cases b.initialized <;> cases b.kind <;> simp [Quiet, note]

@[simp] private theorem quiet_identType (s : Scope) (name : String) (e : Expr) :
    (ctx.identType s name e).Quiet := by
  unfold identType
  split
  · simp
  · split
    · simp
    · split <;> simp

@[simp] private theorem quiet_receiver? (access : Expr) (τ : ExprTy) :
    (ctx.receiver? access τ).Quiet := by
  unfold receiver?
  split <;> simp

@[simp] private theorem quiet_attribute? (access : Expr) (name : String) (τ : ExprTy) :
    (ctx.attribute? access name τ).Quiet := by
  rw [attribute?, quiet_bind_iff]
  refine ⟨by simp, ?_⟩
  split
  · simp
  · split
    · simp
    · split <;> simp

@[simp] private theorem quiet_method? (call : Expr) (name : String) (τ : ExprTy) :
    (ctx.method? call name τ).Quiet := by
  rw [method?, quiet_bind_iff]
  refine ⟨by simp, ?_⟩
  split
  · simp
  · split
    · simp
    · split <;> simp

@[simp] private theorem quiet_callResult (call : Expr) (signature : Option Signature)
    (args : List ExprTy) : (ctx.callResult call signature args).Quiet := by
  unfold callResult
  split
  · simp
  · split <;> simp

@[simp] private theorem quiet_demandClass (className : String) (e : Expr) :
    (ctx.demandClass className e).Quiet := by
  unfold demandClass
  split <;> simp

@[simp] private theorem quiet_createResult (e : Expr) (className : String) (args : List ExprTy) :
    (ctx.createResult e className args).Quiet := by
  unfold createResult
  split
  · dsimp only
    split <;> simp
  · simp

@[simp] private theorem quiet_arrayResult (e : Expr) (types : List ExprTy) :
    (arrayResult e types).Quiet := by
  unfold arrayResult
  split
  · simp
  · split <;> simp

end

mutual

/-- The check of an expression is quiet. -/
theorem quiet_exprType (ctx : Context) (s : Scope) (e : Expr) : (ctx.exprType s e).Quiet := by
  cases e with
  | paren inner span =>
    rw [exprType]
    exact quiet_exprType ctx s inner
  | binary op left right span =>
    rw [exprType, quiet_bind_iff, quiet_bind_iff]
    exact ⟨(quiet_exprType ctx s left).demandValue left,
      (quiet_exprType ctx s right).demandValue right, quiet_orMismatch _ _⟩
  | unary op operand span =>
    rw [exprType, quiet_bind_iff]
    exact ⟨(quiet_exprType ctx s operand).demandValue operand, quiet_orMismatch _ _⟩
  | index object position span =>
    rw [exprType, quiet_bind_iff, quiet_bind_iff]
    exact ⟨(quiet_exprType ctx s object).demandValue object,
      (quiet_exprType ctx s position).demandValue position, quiet_orMismatch _ _⟩
  | field object name span =>
    rw [exprType, quiet_bind_iff, quiet_bind_iff]
    refine ⟨(quiet_exprType ctx s object).demandValue object, quiet_attribute? _ _ _ _, ?_⟩
    split <;> simp
  | call receiver method args span =>
    rw [exprType, quiet_bind_iff, quiet_bind_iff, quiet_bind_iff]
    exact ⟨(quiet_exprType ctx s receiver).demandValue receiver, quiet_method? _ _ _ _,
      quiet_valueTypes ctx s args, quiet_callResult _ _ _ _⟩
  | create className args span =>
    rw [exprType, quiet_bind_iff, quiet_bind_iff]
    exact ⟨quiet_demandClass _ _ _, quiet_valueTypes ctx s args, quiet_createResult _ _ _ _⟩
  | array elements span =>
    rw [exprType, quiet_bind_iff]
    exact ⟨quiet_valueTypes ctx s elements, quiet_arrayResult _ _⟩
  | _ => simp [exprType]

private theorem quiet_valueTypes (ctx : Context) (s : Scope) (es : List Expr) :
    (ctx.valueTypes s es).Quiet := by
  cases es with
  | nil => simp [valueTypes]
  | cons e es =>
    rw [valueTypes, quiet_bind_iff, quiet_bind_iff]
    exact ⟨(quiet_exprType ctx s e).demandValue e, quiet_valueTypes ctx s es, quiet_pure _⟩

end

private theorem quiet_valueType (ctx : Context) (s : Scope) (e : Expr) :
    (ctx.valueType s e).Quiet :=
  (ctx.quiet_exprType s e).demandValue e

private theorem quiet_demandType (ctx : Context) (type : WrittenType) :
    (ctx.demandType type).Quiet := by
  unfold demandType
  split
  · split <;> simp
  · simp

/-- So is that of an initial value. -/
theorem quiet_initializer (ctx : Context) (s : Scope) (isFinal : Bool) (declared : Ty)
    (init : Expr) (blame : Rule → Violation) :
    (ctx.initializer s isFinal declared init blame).Quiet := by
  have hnote : ∀ offender, (note (.nonConstant offender)).Quiet := by simp [Quiet, note]
  rw [initializer, quiet_bind_iff]
  refine ⟨ctx.quiet_valueType s init, ?_⟩
  cases ctx.table.compatible declared (ctx.valueType s init).value <;> cases isFinal <;>
    cases init.firstNonConstant? <;> simp [hnote]

end Context

/-! ## No declaration fails -/

namespace Progress

/-- Events have come up from one stage of a check to a later one, and no declaration has failed. -/
def NoClash (p q : Progress) : Prop :=
  ∃ events, q.events = p.events ++ events ∧ ∀ name span, .duplicate name span ∉ events

/-- Nothing need have come up. -/
theorem NoClash.refl (p : Progress) : p.NoClash p := ⟨[], by simp, by simp⟩

/-- Stages of a check without a clash can be put together. -/
theorem NoClash.trans {p₁ p₂ p₃ : Progress} (h₁ : p₁.NoClash p₂) (h₂ : p₂.NoClash p₃) :
    p₁.NoClash p₃ := by
  obtain ⟨events₁, hevents₁, hquiet₁⟩ := h₁
  obtain ⟨events₂, hevents₂, hquiet₂⟩ := h₂
  refine ⟨events₁ ++ events₂, by rw [hevents₂, hevents₁, List.append_assoc], ?_⟩
  intro name span
  rw [List.mem_append, not_or]
  exact ⟨hquiet₁ name span, hquiet₂ name span⟩

/-- A quiet check adds no clash. -/
theorem noClash_absorb {α : Type} (p : Progress) {c : Checked α} (hc : c.Quiet) :
    p.NoClash (p.absorb c) :=
  ⟨c.events, rfl, hc⟩

private theorem noClash_report (p : Progress) (v : Violation) : p.NoClash (p.report v) :=
  p.noClash_absorb (Checked.quiet_report v)

private theorem noClash_demand (p : Progress) (holds : Bool) (v : Violation) :
    p.NoClash (p.demand holds v) := by
  cases holds with
  | true => exact .refl p
  | false => exact p.noClash_report v

/-- A name that the innermost frame does not have comes last in it. -/
theorem define_of_new {p : Progress} {b : Binding} (span : Option Span)
    (h : (p.scope.lookupLocal? b.name).isSome = false) :
    p.define b span = { p with
      scope := ⟨⟨p.scope.inner.bindings ++ [b], p.scope.inner.loopDepth⟩, p.scope.outer⟩ } := by
  simp [define, Scope.define?, h]

/-- A declaration of a name that the innermost frame does not have is no clash. -/
theorem noClash_define {p : Progress} {b : Binding} (span : Option Span)
    (h : (p.scope.lookupLocal? b.name).isSome = false) : p.NoClash (p.define b span) := by
  rw [define_of_new span h]
  exact .refl p

end Progress

namespace Context

open Progress (NoClash)

section

variable (ctx : Context)

private theorem localInit_noClash (isFinal : Bool) (declared : Ty) (stmt : Stmt) (d : Declarator)
    (p : Progress) : p.NoClash (ctx.localInit isFinal declared stmt d p) := by
  unfold localInit
  cases d.init with
  | none => exact .refl p
  | some init => exact p.noClash_absorb (ctx.quiet_initializer _ _ _ _ _)

/-- Local names are declared without a clash, as they end at the first that is known. -/
theorem declareLocals_noClash (isFinal : Bool) (declared : Ty) (stmt : Stmt)
    (ds : List Declarator) (p : Progress) :
    p.NoClash (ctx.declareLocals isFinal declared stmt ds p) := by
  induction ds generalizing p with
  | nil => exact .refl p
  | cons d ds ih =>
    rw [declareLocals]
    split
    · exact p.noClash_report _
    · rename_i hnew
      refine ((ctx.localInit_noClash isFinal declared stmt d p).trans ?_).trans (ih _)
      apply Progress.noClash_define
      rw [localInit_scope]
      exact Bool.eq_false_iff.mpr hnew

private theorem writeAttribute_noClash (stmt : Stmt) (object : Expr) (name owner : String)
    (info : AttributeInfo) (p : Progress) :
    p.NoClash (ctx.writeAttribute stmt object name owner info p) := by
  unfold writeAttribute
  split
  · split
    · exact .refl p
    · exact p.noClash_report _
  · exact .refl p

private theorem writeName_noClash (stmt : Stmt) (name : String) (span : Span) (p : Progress) :
    p.NoClash (ctx.writeName stmt name span p).2 := by
  unfold writeName
  split
  · dsimp only
    split
    · exact .refl p
    · exact p.noClash_report _
  · split
    · exact p.noClash_demand _ _
    · split <;> exact p.noClash_report _

private theorem target_noClash (stmt : Stmt) (place : Expr) (p : Progress) :
    p.NoClash (ctx.target stmt place p).2 := by
  unfold target
  split
  · exact ctx.writeName_noClash stmt _ _ p
  · rename_i object name span
    have hvalue := p.noClash_absorb (ctx.quiet_valueType p.scope object)
    have hfound := (p.absorb (ctx.valueType p.scope object)).noClash_absorb
      (ctx.quiet_attribute? (.field object name span) name (ctx.valueType p.scope object).value)
    simp only [withValue]
    split
    · exact (hvalue.trans hfound).trans (ctx.writeAttribute_noClash stmt object name _ _ _)
    · exact hvalue.trans hfound
  · exact p.noClash_absorb (ctx.quiet_valueType _ _)

/-- An assignment makes no clash, as it declares nothing. -/
theorem assignment_noClash (place value : Expr) (stmt : Stmt) (p : Progress) :
    p.NoClash (ctx.assignment place value stmt p) := by
  have hvalue := p.noClash_absorb (ctx.quiet_valueType p.scope value)
  have htarget := ctx.target_noClash stmt place (p.absorb (ctx.valueType p.scope value))
  simp only [assignment, withValue]
  split
  · rename_i hq
    rw [hq] at htarget
    exact (hvalue.trans htarget).trans (Progress.noClash_demand _ _ _)
  · rename_i hq
    rw [hq] at htarget
    exact hvalue.trans htarget

private theorem condition_noClash (e : Expr) (stmt : Stmt) (p : Progress) :
    p.NoClash (ctx.condition e stmt p) :=
  (p.noClash_absorb (ctx.quiet_valueType _ _)).trans (Progress.noClash_demand _ _ _)

private theorem bounds_noClash (first last : Expr) (stmt : Stmt) (p : Progress) :
    p.NoClash (ctx.bounds first last stmt p) :=
  (p.noClash_absorb (ctx.quiet_valueType _ _)).trans
    ((Progress.noClash_absorb _ (ctx.quiet_valueType _ _)).trans (Progress.noClash_demand _ _ _))

/-- The counter of a loop is declared in a frame without names. -/
theorem loopHead_noClash (id : Ident) (first last : Expr) (stmt : Stmt) (p : Progress) :
    p.NoClash (ctx.loopHead id first last stmt p) := by
  have hcounter : (p.inScope .push).NoClash (ctx.counter id stmt (p.inScope .push)) := by
    unfold counter
    split
    · exact (Progress.noClash_demand _ _ _).trans (Progress.noClash_demand _ _ _)
    · exact Progress.noClash_define _ rfl
  exact hcounter.trans (ctx.bounds_noClash first last stmt _)

private theorem returned_noClash (value : Option Expr) (stmt : Stmt) (p : Progress) :
    p.NoClash (ctx.returned value stmt p) := by
  cases value with
  | none => exact p.noClash_demand _ _
  | some e =>
    exact (p.noClash_absorb (ctx.quiet_valueType _ _)).trans (Progress.noClash_demand _ _ _)

end

mutual

/-- No declaration fails in the check of a statement. -/
theorem statement_noClash (ctx : Context) (s : Stmt) (p : Progress) :
    p.NoClash (ctx.statement s p) := by
  cases h : ctx.halts p with
  | true =>
    rw [statement_of_halts h]
    exact .refl p
  | false =>
    cases s with
    | declare isFinal type ds span =>
      rw [statement_declare h]
      exact (p.noClash_absorb (ctx.quiet_demandType type)).trans
        (ctx.declareLocals_noClash _ _ _ _ _)
    | assign place value span =>
      rw [statement_assign h]
      exact ctx.assignment_noClash _ _ _ _
    | ifThen cond thenBranch span =>
      rw [statement_ifThen h]
      exact (ctx.condition_noClash _ _ p).trans (statement_noClash ctx thenBranch _)
    | ifElse cond thenBranch elseBranch span =>
      rw [statement_ifElse h]
      have hthen := statement_noClash ctx thenBranch
        ((ctx.condition cond (.ifElse cond thenBranch elseBranch span) p).inScope .push)
      exact ((ctx.condition_noClash _ _ p).trans hthen).trans
        (statement_noClash ctx elseBranch _)
    | loop id first last direction body span =>
      rw [statement_loop h]
      exact (ctx.loopHead_noClash _ _ _ _ p).trans (statement_noClash ctx body _)
    | breakLoop span =>
      rw [statement_breakLoop h]
      exact p.noClash_demand _ _
    | continueLoop span =>
      rw [statement_continueLoop h]
      exact p.noClash_demand _ _
    | returnValue value span =>
      rw [statement_returnValue h]
      exact ctx.returned_noClash _ _ _
    | call invocation span =>
      rw [statement_call h]
      exact p.noClash_absorb (ctx.quiet_exprType _ _)
    | block stmts span =>
      rw [statement_block h]
      exact statements_noClash ctx stmts (p.inScope .push)

/-- Statements in order make no clash. -/
theorem statements_noClash (ctx : Context) (ss : List Stmt) (p : Progress) :
    p.NoClash (ctx.statements ss p) := by
  cases ss with
  | nil =>
    rw [statements_nil]
    exact .refl p
  | cons s ss =>
    rw [statements_cons]
    exact (statement_noClash ctx s p).trans (statements_noClash ctx ss _)

end

end Context

/-! ## Names that a statement adds -/

/-- The names of a frame, without what they are bound to. -/
def Frame.names (f : Frame) : List String := f.bindings.map (·.name)

/-- The innermost frame has a name just if it is one of its names. -/
theorem Scope.lookupLocal?_isSome_iff_mem_names (s : Scope) (name : String) :
    (s.lookupLocal? name).isSome = true ↔ name ∈ s.inner.names := by
  rw [lookupLocal?_isSome_iff]
  simp [Frame.names, Frame.locals, Binding.toLocal]

namespace Declarator

/-- What a declared name is bound to. -/
def binding (isFinal : Bool) (declared : Ty) (d : Declarator) : Binding :=
  ⟨d.name, if isFinal then .constant else .variable, declared, d.init.isSome⟩

/-- Some declared names are those before the first that is known or comes a second time. -/
structure IsNewPart (known : List String) (ds taken : List Declarator) : Prop where
  /-- No name of them is known. -/
  unknown : ∀ d ∈ taken, d.name ∉ known
  /-- No name of them comes twice. -/
  distinct : (taken.map (·.name)).Nodup
  /-- They come first, and a name right after them is known or one of theirs. -/
  first : ∃ rest, ds = taken ++ rest ∧
    ∀ d ∈ rest.head?, d.name ∈ known ∨ d.name ∈ taken.map (·.name)

/-- Of no names none are taken. -/
theorem IsNewPart.nil (known : List String) : IsNewPart known [] [] :=
  ⟨List.forall_mem_nil _, List.nodup_nil, [], rfl, by simp⟩

/-- Nothing is taken from a known name on. -/
theorem IsNewPart.stop {known : List String} {d : Declarator} (h : d.name ∈ known)
    (ds : List Declarator) : IsNewPart known (d :: ds) [] := by
  refine ⟨List.forall_mem_nil _, List.nodup_nil, d :: ds, rfl, ?_⟩
  intro d' hd'
  obtain rfl : d = d' := by simpa using hd'
  exact .inl h

/-- A name that is not known is taken, and is known from there on. -/
theorem IsNewPart.cons {known : List String} {d : Declarator} {ds taken : List Declarator}
    (hd : d.name ∉ known) (h : IsNewPart (known ++ [d.name]) ds taken) :
    IsNewPart known (d :: ds) (d :: taken) := by
  obtain ⟨hunknown, hdistinct, rest, rfl, hrest⟩ := h
  have hfresh : ∀ d' ∈ taken, d'.name ∉ known ∧ d'.name ≠ d.name := by
    intro d' hd'
    simpa using hunknown d' hd'
  refine ⟨?_, ?_, rest, rfl, ?_⟩
  · intro d' hd'
    rcases List.mem_cons.mp hd' with rfl | hd'
    · exact hd
    · exact (hfresh d' hd').1
  · rw [List.map_cons, List.nodup_cons]
    refine ⟨?_, hdistinct⟩
    intro hmem
    obtain ⟨d', hd', hname⟩ := List.mem_map.mp hmem
    exact (hfresh d' hd').2 hname
  · intro d' hd'
    have hknown := hrest d' hd'
    rw [List.mem_append, List.mem_singleton, or_assoc] at hknown
    rwa [List.map_cons, List.mem_cons]

end Declarator

/-- A statement adds these names to a frame that knows some. -/
def Stmt.Introduces (known : List String) (new : List Binding) : Stmt → Prop
  | .declare isFinal type ds _ =>
    ∃ taken, Declarator.IsNewPart known ds taken ∧
      new = taken.map (Declarator.binding isFinal (.ofWritten type))
  | _ => new = []

namespace Scope

private theorem Gains.loopDepths {s s' : Scope} {new : List Binding} (h : s.Gains s' new) :
    s'.frames.map (·.loopDepth) = s.frames.map (·.loopDepth) := by
  obtain ⟨old, hinner, -, houter⟩ := h
  have hdepths := congrArg (List.map Prod.snd) houter.shape
  rw [List.map_map, List.map_map] at hdepths
  rw [frames, frames, List.map_cons, List.map_cons, hinner]
  exact congrArg (s.inner.loopDepth :: ·) hdepths

/-- Names that are added do not change how many frames there are. -/
theorem Gains.depth {s s' : Scope} {new : List Binding} (h : s.Gains s' new) :
    s'.depth = s.depth := by
  simpa [Scope.depth] using congrArg List.length h.loopDepths

end Scope

namespace Context

/-- A declaration adds its names up to the first that the frame has already. -/
theorem declareLocals_scope (ctx : Context) (isFinal : Bool) (declared : Ty) (stmt : Stmt)
    (ds : List Declarator) (p : Progress) :
    ∃ taken, Declarator.IsNewPart p.scope.inner.names ds taken ∧
      (ctx.declareLocals isFinal declared stmt ds p).scope =
        ⟨⟨p.scope.inner.bindings ++ taken.map (Declarator.binding isFinal declared),
          p.scope.inner.loopDepth⟩, p.scope.outer⟩ := by
  induction ds generalizing p with
  | nil => exact ⟨[], .nil _, by simp [declareLocals]⟩
  | cons d ds ih =>
    rw [declareLocals]
    split
    · rename_i hold
      rw [Scope.lookupLocal?_isSome_iff_mem_names] at hold
      exact ⟨[], .stop hold ds, by simp [Progress.report, Progress.absorb]⟩
    · rename_i hnew
      let q := ctx.localInit isFinal declared stmt d p
      have hfree : (q.scope.lookupLocal? (d.binding isFinal declared).name).isSome = false := by
        rw [localInit_scope]
        exact Bool.eq_false_iff.mpr hnew
      obtain ⟨taken, hpart, hscope⟩ := ih (q.define (d.binding isFinal declared) none)
      rw [Progress.define_of_new none hfree, localInit_scope] at hpart
      rw [Scope.lookupLocal?_isSome_iff_mem_names] at hnew
      refine ⟨d :: taken, .cons hnew ?_, hscope.trans ?_⟩
      · simpa [Frame.names, Declarator.binding] using hpart
      · rw [Progress.define_of_new none hfree, localInit_scope]
        simp

/-- What a statement that is checked does to the names. -/
theorem statement_gains {ctx : Context} {p : Progress} (h : ctx.halts p = false) (s : Stmt) :
    ∃ new, s.Introduces p.scope.inner.names new ∧ p.scope.Gains (ctx.statement s p).scope new := by
  cases hs : s.isDeclaration with
  | false =>
    refine ⟨[], ?_, (ctx.statement_fills s hs p).gains⟩
    cases s with
    | declare isFinal type ds span => cases hs
    | _ => rfl
  | true =>
    cases s with
    | declare isFinal type ds span =>
      obtain ⟨taken, hpart, hscope⟩ := ctx.declareLocals_scope isFinal (.ofWritten type)
        (.declare isFinal type ds span) ds (p.absorb (ctx.demandType type))
      refine ⟨_, ⟨taken, hpart, rfl⟩, p.scope.inner.bindings, ?_, .refl _, ?_⟩
      · rw [statement_declare h, hscope]
        rfl
      · rw [statement_declare h, hscope]
        exact .refl _
    | _ => cases hs

end Context

/-! ## Scope-neutral checks -/

/-- No declaration has failed since, and nothing but the events has changed. -/
structure Progress.OnlyNotes (p q : Progress) : Prop where
  /-- The local names are the same, and so are the values stored under them. -/
  scope : q.scope = p.scope
  /-- No further attribute has been given a value. -/
  assigned : q.assigned = p.assigned
  /-- The events before are kept. -/
  events : p.NoClash q

/-- A quiet check changes nothing but the events. -/
theorem Progress.onlyNotes_absorb {α : Type} (p : Progress) {c : Checked α} (hc : c.Quiet) :
    p.OnlyNotes (p.absorb c) :=
  ⟨rfl, rfl, p.noClash_absorb hc⟩

/-- What the check of a statement changes from one stage to another. -/
structure Stmt.Confined (s : Stmt) (ctx : Context) (p q : Progress) : Prop where
  /-- There are as many frames. -/
  depth : q.scope.depth = p.scope.depth
  /-- The loops around every frame are counted as before. -/
  loopDepths : q.scope.frames.map (·.loopDepth) = p.scope.frames.map (·.loopDepth)
  /-- Nothing happens after a traversal has been stopped. -/
  stopped : ctx.halts p = true → q = p
  /-- Values are stored, and the innermost frame has the names of the statement at its end. -/
  gains : ctx.halts p = false →
    ∃ new, s.Introduces p.scope.inner.names new ∧ p.scope.Gains q.scope new
  /-- No declaration of a local name fails. -/
  declares : p.NoClash q

/-- The check of a statement changes no more than it may. -/
theorem Context.statement_confined (ctx : Context) (s : Stmt) (p : Progress) :
    s.Confined ctx p (ctx.statement s p) := by
  have hgains : ∃ new, p.scope.Gains (ctx.statement s p).scope new := by
    cases h : ctx.halts p with
    | true =>
      rw [statement_of_halts h]
      exact ⟨[], (Scope.Fills.refl _).gains⟩
    | false =>
      obtain ⟨new, -, hnew⟩ := statement_gains h s
      exact ⟨new, hnew⟩
  obtain ⟨new, hnew⟩ := hgains
  exact {
    depth := hnew.depth
    loopDepths := hnew.loopDepths
    stopped := fun h => statement_of_halts h s
    gains := fun h => statement_gains h s
    declares := ctx.statement_noClash s p }

/-- Expressions only let events come up. Statements keep the frames and the loops around them and
go on in the same context; they store values and add what they declare, and no declaration of a
local name fails. A class leaves nothing behind, however far its check goes. -/
theorem checks_keep_scope :
    (∀ (ctx : Context) (p : Progress) (e : Expr),
      p.OnlyNotes (p.absorb (ctx.exprType p.scope e)) ∧
        ctx.withValue e p fun _ q => p.OnlyNotes q) ∧
    (∀ (ctx : Context) (s : Stmt) (p : Progress),
      s.Confined ctx p (ctx.statement s p) ∧
        ∀ ss, ctx.statements (s :: ss) p = ctx.statements ss (ctx.statement s p)) ∧
    ∀ (t : ClassTable) (walk : Walk) (c : ClassDecl) (p : Progress),
      p.scope = .global → (t.checkClass walk c p).scope = .global := by
  refine ⟨?_, ?_, ?_⟩
  · intro ctx p e
    exact ⟨p.onlyNotes_absorb (ctx.quiet_exprType _ e),
      p.onlyNotes_absorb (ctx.quiet_valueType _ e)⟩
  · intro ctx s p
    exact ⟨ctx.statement_confined s p, fun ss => Context.statements_cons ctx s ss p⟩
  · intro t walk c p hp
    exact t.checkClass_global walk c hp

/-- A declaration of four names, the third of which is the first one again. -/
def tubDeclaration : Stmt :=
  .declare false (.primitive .int ⟨33, 36⟩) [⟨"a", none, ⟨37, 38⟩⟩,
    ⟨"b", some (.int 1 ⟨45, 46⟩), ⟨40, 46⟩⟩, ⟨"a", none, ⟨48, 49⟩⟩, ⟨"c", none, ⟨51, 52⟩⟩] ⟨33, 53⟩

/-- One more declaration. -/
def tubRest : Stmt := .declare false (.primitive .int ⟨54, 57⟩) [⟨"d", none, ⟨58, 59⟩⟩] ⟨54, 60⟩

/-- A class that declares all of these names in one method. -/
def tubClass : ClassDecl :=
  ⟨⟨"Tub", ⟨6, 9⟩⟩, none, [.method ⟨true, none, mainName, [], ⟨[tubDeclaration, tubRest],
    ⟨31, 62⟩⟩⟩ ⟨12, 62⟩], ⟨0, 64⟩⟩

/-- The table of that class. -/
def tubTable : ClassTable :=
  ⟨[ClassTable.ioEntry, ⟨"Tub", none, [(mainName, ⟨some (.method ⟨none, [], true⟩), none,
    false⟩)]⟩], true⟩

/-- Two of four names are declared; the third stops the traversal, so the declaration after it is
left out, and no name is left after the class. -/
theorem tub_names_gone :
    let ctx := Context.ofClass .untilSettled tubTable "Tub"
    let after := ctx.statement tubDeclaration .start
    ctx.halts .start = false ∧
      (∃ new, tubDeclaration.Introduces Progress.start.scope.inner.names new ∧
        Progress.start.scope.Gains after.scope new) ∧
      after.scope.inner.names = [ioName, "a", "b"] ∧
      ctx.halts after = true ∧ ctx.statement tubRest after = after ∧
      (tubTable.checkClass .untilSettled tubClass .start).scope = .global := by
  intro ctx after
  obtain ⟨-, hstmt, hclass⟩ := checks_keep_scope
  have hstart : ctx.halts .start = false := by decide +kernel
  have hstop : ctx.halts after = true := by decide +kernel
  exact ⟨hstart, (hstmt ctx tubDeclaration .start).1.gains hstart, by decide +kernel, hstop,
    (hstmt ctx tubRest after).1.stopped hstop, hclass _ _ _ .start rfl⟩

end ClassCheck
