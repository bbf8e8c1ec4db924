import ClassCheck.Proofs.Traversal
import ClassCheck.Proofs.Typing

/-!
# What a statement does to the frames around it

Checking a statement leaves every frame as it was, except that values may have been stored under
its names and that a declaration adds names to the innermost one. In particular a frame that is
put around a branch, a loop or a block is gone after it, and the loops are counted as before.
Where only names and loops matter, a frame is seen as its names, without whether values have been
stored, and the number of loops around it.
-/

namespace ClassCheck

/-- A binding without whether a value has been stored. -/
def Binding.toLocal (b : Binding) : Local := ⟨b.name, b.kind, b.type⟩

/-- The names of a frame. -/
def Frame.locals (f : Frame) : List Local := f.bindings.map Binding.toLocal

/-- The names of a scope by frame. -/
def Scope.env (s : Scope) : Env := s.frames.map Frame.locals

/-- The names of a frame are looked up among its bindings. -/
theorem Frame.find?_locals (f : Frame) (name : String) :
    f.locals.find? (·.name = name) = (f.lookup? name).map Binding.toLocal := by
  rw [Frame.locals, List.find?_map]
  rfl

/-- A name is looked up in a scope as among its names. -/
theorem Scope.lookup?_env (s : Scope) (name : String) :
    s.env.lookup? name = (s.lookup? name).map Binding.toLocal := by
  unfold Scope.env Scope.lookup? Env.lookup?
  induction s.frames with
  | nil => rfl
  | cons f fs ih =>
    rw [List.map_cons, List.findSome?_cons, List.findSome?_cons, Frame.find?_locals]
    cases f.lookup? name with
    | some b => rfl
    | none => exact ih

/-! ## Values stored meanwhile -/

/-- A binding is another, except that a value may have been stored since. -/
def Binding.Fills (b b' : Binding) : Prop := b' = b ∨ b' = { b with initialized := true }

/-- A binding may stay as it is. -/
theorem Binding.Fills.refl (b : Binding) : b.Fills b := Or.inl rfl

/-- Values may be stored in a binding one after another. -/
theorem Binding.Fills.trans {b₁ b₂ b₃ : Binding} (h₁ : b₁.Fills b₂) (h₂ : b₂.Fills b₃) :
    b₁.Fills b₃ := by
  rcases h₁ with rfl | rfl
  · exact h₂
  · rcases h₂ with rfl | rfl <;> exact Or.inr rfl

/-- A name, its kind and its type stay the same when a value is stored. -/
theorem Binding.Fills.toLocal {b b' : Binding} (h : b.Fills b') : b'.toLocal = b.toLocal := by
  rcases h with rfl | rfl <;> rfl

/-- Bindings are others in the same order, except for values stored since. -/
abbrev Binding.AllFill : List Binding → List Binding → Prop := List.Forall₂ Binding.Fills

/-- The bindings of a frame may stay as they are. -/
theorem Binding.AllFill.refl (bs : List Binding) : Binding.AllFill bs bs :=
  List.forall₂_same.mpr fun b _ => Binding.Fills.refl b

/-- Values may be stored in the bindings of a frame one after another. -/
theorem Binding.AllFill.trans {bs₁ bs₂ bs₃ : List Binding} (h₁ : Binding.AllFill bs₁ bs₂)
    (h₂ : Binding.AllFill bs₂ bs₃) : Binding.AllFill bs₁ bs₃ := by
  induction h₁ generalizing bs₃ with
  | nil => exact h₂
  | cons hb _ ih =>
    cases h₂ with
    | cons hb' hrest => exact .cons (hb.trans hb') (ih hrest)

/-- The names, kinds and types of a frame stay the same when values are stored. -/
theorem Binding.AllFill.locals {bs bs' : List Binding} (h : Binding.AllFill bs bs') :
    bs'.map Binding.toLocal = bs.map Binding.toLocal := by
  induction h with
  | nil => rfl
  | cons hb _ ih => rw [List.map_cons, List.map_cons, hb.toLocal, ih]

/-- A frame is another, except for values stored since. -/
structure Frame.Fills (f f' : Frame) : Prop where
  /-- The loops around it are counted as before. -/
  loopDepth : f'.loopDepth = f.loopDepth
  /-- The names are the same. -/
  bindings : Binding.AllFill f.bindings f'.bindings

/-- A frame may stay as it is. -/
theorem Frame.Fills.refl (f : Frame) : f.Fills f := ⟨rfl, .refl _⟩

/-- Values may be stored in a frame one after another. -/
theorem Frame.Fills.trans {f₁ f₂ f₃ : Frame} (h₁ : f₁.Fills f₂) (h₂ : f₂.Fills f₃) :
    f₁.Fills f₃ := ⟨h₂.loopDepth.trans h₁.loopDepth, h₁.bindings.trans h₂.bindings⟩

/-- Marking a name in a frame does no more than store a value. -/
theorem Frame.fills_mark (f : Frame) (name : String) : f.Fills (f.mark name) := by
  refine ⟨rfl, ?_⟩
  unfold Frame.mark
  rw [Binding.AllFill, List.forall₂_map_right_iff, List.forall₂_same]
  intro b _
  split
  · exact Or.inr rfl
  · exact Or.inl rfl

/-- Frames are others in the same order, except for values stored since. -/
abbrev Frame.AllFill : List Frame → List Frame → Prop := List.Forall₂ Frame.Fills

/-- All frames may stay as they are. -/
theorem Frame.AllFill.refl (fs : List Frame) : Frame.AllFill fs fs :=
  List.forall₂_same.mpr fun f _ => Frame.Fills.refl f

/-- Values may be stored in all frames one after another. -/
theorem Frame.AllFill.trans {fs₁ fs₂ fs₃ : List Frame} (h₁ : Frame.AllFill fs₁ fs₂)
    (h₂ : Frame.AllFill fs₂ fs₃) : Frame.AllFill fs₁ fs₃ := by
  induction h₁ generalizing fs₃ with
  | nil => exact h₂
  | cons hf _ ih =>
    cases h₂ with
    | cons hf' hrest => exact .cons (hf.trans hf') (ih hrest)

/-- Names and loop depths of all frames stay the same when values are stored. -/
theorem Frame.AllFill.shape {fs fs' : List Frame} (h : Frame.AllFill fs fs') :
    fs'.map (fun f => (f.locals, f.loopDepth)) = fs.map fun f => (f.locals, f.loopDepth) := by
  induction h with
  | nil => rfl
  | cons hf _ ih =>
    rw [List.map_cons, List.map_cons, ih, hf.loopDepth, Frame.locals, Frame.locals,
      hf.bindings.locals]

/-- Marking a name in the innermost frame that has it does no more than store a value. -/
theorem Frame.allFill_markIn (name : String) (fs : List Frame) :
    Frame.AllFill fs (Scope.markIn name fs) := by
  induction fs with
  | nil => exact .nil
  | cons f fs ih =>
    rw [Scope.markIn]
    split
    · exact .cons (f.fills_mark name) (Frame.AllFill.refl fs)
    · exact .cons (Frame.Fills.refl f) ih

namespace Scope

/-- The names of the frames and the loops around them. -/
def shape (s : Scope) : List (List Local × Nat) :=
  s.frames.map fun f => (f.locals, f.loopDepth)

private theorem env_eq_map_shape (s : Scope) : s.env = s.shape.map Prod.fst := by
  simp [env, shape]

/-- Scopes of the same shape have the same names. -/
theorem env_eq_of_shape {s s' : Scope} (h : s'.shape = s.shape) : s'.env = s.env := by
  rw [env_eq_map_shape, env_eq_map_shape, h]

/-- Of two scopes of the same shape both are in a loop, or neither. -/
theorem inLoop_eq_of_shape {s s' : Scope} (h : s'.shape = s.shape) : s'.inLoop = s.inLoop := by
  have hdepth := congrArg Prod.snd (List.cons.inj h).1
  simp only at hdepth
  rw [inLoop, inLoop, hdepth]

/-- One scope is another with names added to its innermost frame. -/
def Extends (s s' : Scope) : Prop :=
  ∃ new, s'.shape = (s.inner.locals ++ new, s.inner.loopDepth) ::
    s.outer.map fun f => (f.locals, f.loopDepth)

/-- The names in the outer frames stay. -/
theorem Extends.env {s s' : Scope} (h : s.Extends s') :
    s'.env = s'.inner.locals :: s.outer.map Frame.locals := by
  obtain ⟨new, h⟩ := h
  have houter := congrArg (List.map Prod.fst) (List.cons.inj h).2
  rw [List.map_map, List.map_map] at houter
  exact congrArg (s'.inner.locals :: ·) houter

/-- Adding names does not change whether a loop is around. -/
theorem Extends.inLoop {s s' : Scope} (h : s.Extends s') : s'.inLoop = s.inLoop := by
  obtain ⟨new, h⟩ := h
  have hdepth := congrArg Prod.snd (List.cons.inj h).1
  simp only at hdepth
  rw [Scope.inLoop, Scope.inLoop, hdepth]

/-- A scope is another, except for values stored since. -/
def Fills (s s' : Scope) : Prop := Frame.AllFill s.frames s'.frames

/-- A scope is another, except for values stored since and these names at the end of its innermost
frame. -/
def Gains (s s' : Scope) (new : List Binding) : Prop :=
  ∃ old, s'.inner = ⟨old ++ new, s.inner.loopDepth⟩ ∧
    Binding.AllFill s.inner.bindings old ∧ Frame.AllFill s.outer s'.outer

/-- A scope is another, except for values stored since and names added to its innermost frame. -/
def Adds (s s' : Scope) : Prop :=
  ∃ old new, s'.inner = ⟨old ++ new, s.inner.loopDepth⟩ ∧
    Binding.AllFill s.inner.bindings old ∧ Frame.AllFill s.outer s'.outer

/-- A scope may stay as it is. -/
theorem Fills.refl (s : Scope) : s.Fills s := Frame.AllFill.refl _

/-- Values may be stored one after another. -/
theorem Fills.trans {s₁ s₂ s₃ : Scope} (h₁ : s₁.Fills s₂) (h₂ : s₂.Fills s₃) : s₁.Fills s₃ :=
  Frame.AllFill.trans h₁ h₂

/-- Storing values keeps the shape. -/
theorem Fills.shape {s s' : Scope} (h : s.Fills s') : s'.shape = s.shape := Frame.AllFill.shape h

/-- Storing values adds no names. -/
theorem Fills.gains {s s' : Scope} (h : s.Fills s') : s.Gains s' [] := by
  cases h with
  | cons hinner houter =>
    refine ⟨s'.inner.bindings, ?_, hinner.bindings, houter⟩
    rw [List.append_nil, ← hinner.loopDepth]

/-- Storing values is adding names, with none of them. -/
theorem Fills.adds {s s' : Scope} (h : s.Fills s') : s.Adds s' := by
  obtain ⟨old, hold⟩ := h.gains
  exact ⟨old, [], hold⟩

/-- Nothing need be added. -/
theorem Adds.refl (s : Scope) : s.Adds s := (Fills.refl s).adds

/-- Names may be added one after another. -/
theorem Adds.trans {s₁ s₂ s₃ : Scope} (h₁ : s₁.Adds s₂) (h₂ : s₂.Adds s₃) : s₁.Adds s₃ := by
  obtain ⟨old₁, new₁, hinner₁, hfill₁, houter₁⟩ := h₁
  obtain ⟨old₂, new₂, hinner₂, hfill₂, houter₂⟩ := h₂
  rw [hinner₁] at hinner₂ hfill₂
  -- The names that the first step added are among those that the second one kept.
  obtain ⟨hold, hnew⟩ : Binding.AllFill old₁ (old₂.take old₁.length) ∧
      Binding.AllFill new₁ (old₂.drop old₁.length) := by
    constructor
    · simpa using List.forall₂_take old₁.length hfill₂
    · simpa using List.forall₂_drop old₁.length hfill₂
  refine ⟨old₂.take old₁.length, old₂.drop old₁.length ++ new₂, ?_, hfill₁.trans hold,
    houter₁.trans houter₂⟩
  rw [hinner₂, ← List.append_assoc, List.take_append_drop]

/-- All frames but the innermost keep their shape when names are added. -/
theorem Adds.extends {s s' : Scope} (h : s.Adds s') : s.Extends s' := by
  obtain ⟨old, new, hinner, hfill, houter⟩ := h
  refine ⟨new.map Binding.toLocal, ?_⟩
  unfold shape frames
  rw [List.map_cons, houter.shape, hinner, Frame.locals, Frame.locals, List.map_append,
    hfill.locals]

/-! ## The operations of a scope -/

/-- A declared name comes last in the innermost frame. -/
theorem env_of_define? {s s' : Scope} {b : Binding} (h : s.define? b = some s') :
    s'.env = (s.inner.locals ++ [b.toLocal]) :: s.outer.map Frame.locals := by
  unfold define? at h
  split at h
  · cases h
  · cases h
    simp [env, frames, Frame.locals]

/-- The innermost frame has a name if one of its names is that one. -/
theorem lookupLocal?_isSome_iff (s : Scope) (name : String) :
    (s.lookupLocal? name).isSome = true ↔ ∃ l ∈ s.inner.locals, l.name = name := by
  rw [lookupLocal?, Frame.lookup?, List.find?_isSome]
  simp [Frame.locals, Binding.toLocal]

/-- A name can be declared unless the innermost frame has it. -/
theorem define?_eq_none_iff (s : Scope) (b : Binding) :
    s.define? b = none ↔ ∃ l ∈ s.inner.locals, l.name = b.name := by
  rw [← lookupLocal?_isSome_iff]
  unfold define? lookupLocal?
  split <;> simp_all

/-- A declaration adds one name. -/
theorem adds_of_define? {s s' : Scope} {b : Binding} (h : s.define? b = some s') :
    s.Adds s' := by
  unfold define? at h
  split at h
  · cases h
  · cases h
    exact ⟨s.inner.bindings, [b], rfl, .refl _, .refl _⟩

/-- Storing a value changes neither names nor loops. -/
theorem fills_markInitialized (s : Scope) (name : String) :
    s.Fills (s.markInitialized name) := by
  unfold markInitialized Fills frames
  split
  · exact .cons (s.inner.fills_mark name) (Frame.AllFill.refl s.outer)
  · exact .cons (Frame.Fills.refl s.inner) (Frame.allFill_markIn name s.outer)

/-- A frame put inside has no names. -/
@[simp] theorem env_push (s : Scope) : s.push.env = [] :: s.env := rfl

/-- Entering a loop changes no names. -/
@[simp] theorem env_enterLoop (s : Scope) : s.enterLoop.env = s.env := rfl

/-- A scope that has entered a loop is in one. -/
@[simp] theorem inLoop_enterLoop (s : Scope) : s.enterLoop.inLoop = true := by
  simp [Scope.inLoop, enterLoop]

/-- What is left after the innermost frame is gone are the frames around it. -/
theorem fills_pop {s s' : Scope} (h : Frame.AllFill s.frames s'.outer) : s.Fills s'.pop := by
  unfold Scope.pop
  split
  · rename_i hnone
    rw [hnone] at h
    cases h
  · rename_i f fs hsome
    rw [hsome] at h
    exact h

/-- Whatever was declared in a frame of its own is gone with it. -/
theorem Adds.pop {s s' : Scope} (h : s.push.Adds s') : s.Fills s'.pop := by
  obtain ⟨old, new, -, -, houter⟩ := h
  exact fills_pop houter

/-- A loop is counted for its body only. -/
theorem Adds.exitLoop {s s' s'' : Scope} (h : s.Adds s') (h' : s'.enterLoop.Fills s'') :
    s.Adds s''.exitLoop := by
  obtain ⟨old, new, hinner, hfill, houter⟩ := h
  cases h' with
  | cons hinner' houter' =>
    have hadds : s'.Adds s''.exitLoop := by
      refine ⟨s''.inner.bindings, [], ?_, hinner'.bindings, houter'⟩
      have hdepth := hinner'.loopDepth
      simp only [enterLoop] at hdepth
      simp [Scope.exitLoop, hdepth]
    exact Adds.trans ⟨old, new, hinner, hfill, houter⟩ hadds

end Scope

namespace Progress

/-- A demand changes no names. -/
@[simp] theorem demand_scope (p : Progress) (holds : Bool) (v : Violation) :
    (p.demand holds v).scope = p.scope := by
  cases holds <;> rfl

/-- A demand gives no final attribute a value. -/
@[simp] theorem demand_assigned (p : Progress) (holds : Bool) (v : Violation) :
    (p.demand holds v).assigned = p.assigned := by
  cases holds <;> rfl

/-- A declaration adds the name to the innermost frame, or nothing. -/
theorem define_adds (p : Progress) (b : Binding) (span : Option Span) :
    p.scope.Adds (p.define b span).scope := by
  unfold define
  cases h : p.scope.define? b with
  | some scope => exact Scope.adds_of_define? h
  | none => exact .refl _

/-- A name that the innermost frame does not have comes last in it. -/
theorem env_define {p : Progress} {b : Binding} (span : Option Span)
    (h : ∀ l ∈ p.scope.inner.locals, l.name ≠ b.name) :
    (p.define b span).scope.env =
      (p.scope.inner.locals ++ [b.toLocal]) :: p.scope.outer.map Frame.locals := by
  have hnew : ¬ (p.scope.lookupLocal? b.name).isSome = true := by
    rw [Scope.lookupLocal?_isSome_iff]
    rintro ⟨l, hl, hname⟩
    exact h l hl hname
  unfold define
  cases hs : p.scope.define? b with
  | some scope => exact Scope.env_of_define? hs
  | none => simp [Scope.define?, hnew] at hs

/-- A declaration of a name gives no final attribute a value. -/
@[simp] theorem define_assigned (p : Progress) (b : Binding) (span : Option Span) :
    (p.define b span).assigned = p.assigned := by
  unfold define
  cases p.scope.define? b <;> rfl

end Progress

/-- Whether a statement declares names for the statements after it. -/
def Stmt.isDeclaration : Stmt → Bool
  | .declare .. => true
  | _ => false

namespace Context

/-! ## Parts of statements -/

/-- An initial value of a local name changes no names. -/
@[simp] theorem localInit_scope (ctx : Context) (isFinal : Bool) (declared : Ty) (stmt : Stmt)
    (d : Declarator) (p : Progress) :
    (ctx.localInit isFinal declared stmt d p).scope = p.scope := by
  unfold localInit
  cases d.init <;> rfl

@[simp] private theorem localInit_assigned (ctx : Context) (isFinal : Bool) (declared : Ty)
    (stmt : Stmt) (d : Declarator) (p : Progress) :
    (ctx.localInit isFinal declared stmt d p).assigned = p.assigned := by
  unfold localInit
  cases d.init <;> rfl

/-- Local names are added to the innermost frame. -/
theorem declareLocals_adds (ctx : Context) (isFinal : Bool) (declared : Ty) (stmt : Stmt)
    (ds : List Declarator) (p : Progress) :
    p.scope.Adds (ctx.declareLocals isFinal declared stmt ds p).scope := by
  induction ds generalizing p with
  | nil => exact .refl _
  | cons d ds ih =>
    rw [declareLocals]
    split
    · exact .refl _
    · refine Scope.Adds.trans ?_ (ih _)
      have hdefine := Progress.define_adds (ctx.localInit isFinal declared stmt d p)
        ⟨d.name, if isFinal then .constant else .variable, declared, d.init.isSome⟩ none
      rwa [localInit_scope] at hdefine

/-- Declarations of local names give no final attribute a value. -/
theorem declareLocals_assigned (ctx : Context) (isFinal : Bool) (declared : Ty) (stmt : Stmt)
    (ds : List Declarator) (p : Progress) :
    (ctx.declareLocals isFinal declared stmt ds p).assigned = p.assigned := by
  induction ds generalizing p with
  | nil => rfl
  | cons d ds ih =>
    rw [declareLocals]
    split
    · rfl
    · rw [ih, Progress.define_assigned, localInit_assigned]

/-- Writing to an attribute changes no names. -/
@[simp] theorem writeAttribute_scope (ctx : Context) (stmt : Stmt) (object : Expr)
    (name owner : String) (info : AttributeInfo) (p : Progress) :
    (ctx.writeAttribute stmt object name owner info p).scope = p.scope := by
  unfold writeAttribute
  split
  · split <;> rfl
  · rfl

/-- Writing to a name stores a value under it at most. -/
theorem writeName_fills (ctx : Context) (stmt : Stmt) (name : String) (span : Span)
    (p : Progress) : p.scope.Fills (ctx.writeName stmt name span p).2.scope := by
  unfold writeName
  split
  · dsimp only
    split
    · exact Scope.fills_markInitialized _ _
    · exact .refl _
  · split
    · rw [Progress.demand_scope]
      exact .refl _
    · split <;> exact .refl _

/-- So does writing to any place. -/
theorem target_fills (ctx : Context) (stmt : Stmt) (place : Expr) (p : Progress) :
    p.scope.Fills (ctx.target stmt place p).2.scope := by
  unfold target
  split
  · exact ctx.writeName_fills stmt _ _ p
  · simp only [withValue]
    split
    · rw [writeAttribute_scope]
      exact .refl _
    · exact .refl _
  · exact .refl _

/-- So does an assignment. -/
theorem assignment_fills (ctx : Context) (place value : Expr) (stmt : Stmt) (p : Progress) :
    p.scope.Fills (ctx.assignment place value stmt p).scope := by
  have htarget := ctx.target_fills stmt place (p.absorb (ctx.valueType p.scope value))
  simp only [assignment, withValue]
  split
  · rename_i hq
    rw [hq] at htarget
    rw [Progress.demand_scope]
    exact htarget
  · rename_i hq
    rw [hq] at htarget
    exact htarget

/-- A condition changes no names. -/
@[simp] theorem condition_scope (ctx : Context) (e : Expr) (stmt : Stmt) (p : Progress) :
    (ctx.condition e stmt p).scope = p.scope := by
  simp [condition, withValue]

/-- A condition gives no final attribute a value. -/
@[simp] theorem condition_assigned (ctx : Context) (e : Expr) (stmt : Stmt) (p : Progress) :
    (ctx.condition e stmt p).assigned = p.assigned := by
  simp [condition, withValue]

/-- A counter is added to the innermost frame, or nothing is. -/
theorem counter_adds (ctx : Context) (id : Ident) (stmt : Stmt) (p : Progress) :
    p.scope.Adds (ctx.counter id stmt p).scope := by
  unfold counter
  split
  · dsimp only
    rw [Progress.demand_scope, Progress.demand_scope]
    exact .refl _
  · exact p.define_adds _ _

@[simp] private theorem counter_assigned (ctx : Context) (id : Ident) (stmt : Stmt) (p : Progress) :
    (ctx.counter id stmt p).assigned = p.assigned := by
  unfold counter
  split <;> simp

/-- The bounds of a loop change no names. -/
@[simp] theorem bounds_scope (ctx : Context) (first last : Expr) (stmt : Stmt) (p : Progress) :
    (ctx.bounds first last stmt p).scope = p.scope := by
  simp [bounds, withValue]

/-- The bounds of a loop give no final attribute a value. -/
@[simp] theorem bounds_assigned (ctx : Context) (first last : Expr) (stmt : Stmt)
    (p : Progress) : (ctx.bounds first last stmt p).assigned = p.assigned := by
  simp [bounds, withValue]

/-- The head of a loop adds its counter to a frame of its own. -/
theorem loopHead_adds (ctx : Context) (id : Ident) (first last : Expr) (stmt : Stmt)
    (p : Progress) : p.scope.push.Adds (ctx.loopHead id first last stmt p).scope := by
  rw [loopHead, bounds_scope]
  exact ctx.counter_adds id stmt (p.inScope .push)

/-- The head of a loop gives no final attribute a value. -/
@[simp] theorem loopHead_assigned (ctx : Context) (id : Ident) (first last : Expr) (stmt : Stmt)
    (p : Progress) : (ctx.loopHead id first last stmt p).assigned = p.assigned := by
  rw [loopHead, bounds_assigned, counter_assigned, Progress.inScope_assigned]

/-- The frame of a loop is put on the frames around it. -/
theorem env_loopHead (ctx : Context) (id : Ident) (first last : Expr) (stmt : Stmt)
    (p : Progress) :
    (ctx.loopHead id first last stmt p).scope.env =
      (ctx.loopHead id first last stmt p).scope.inner.locals :: p.scope.env :=
  (ctx.loopHead_adds id first last stmt p).extends.env

/-- Returning changes no names. -/
@[simp] theorem returned_scope (ctx : Context) (value : Option Expr) (stmt : Stmt)
    (p : Progress) : (ctx.returned value stmt p).scope = p.scope := by
  cases value <;> simp [returned, withValue]

/-- Returning gives no final attribute a value. -/
@[simp] theorem returned_assigned (ctx : Context) (value : Option Expr) (stmt : Stmt)
    (p : Progress) : (ctx.returned value stmt p).assigned = p.assigned := by
  cases value <;> simp [returned, withValue]

/-! ## Statements -/

mutual

/-- A statement other than a declaration leaves all frames as they were. -/
theorem statement_fills (ctx : Context) (s : Stmt) (hs : s.isDeclaration = false)
    (p : Progress) : p.scope.Fills (ctx.statement s p).scope := by
  cases h : ctx.halts p with
  | true =>
    rw [statement_of_halts h]
    exact .refl _
  | false =>
    cases s with
    | declare isFinal type ds span => cases hs
    | assign place value span =>
      rw [statement_assign h]
      exact ctx.assignment_fills _ _ _ _
    | ifThen cond thenBranch span =>
      have hthen := nested_fills ctx thenBranch
        (ctx.condition cond (.ifThen cond thenBranch span) p)
      rw [condition_scope] at hthen
      rwa [statement_ifThen h]
    | ifElse cond thenBranch elseBranch span =>
      have hthen := nested_fills ctx thenBranch
        (ctx.condition cond (.ifElse cond thenBranch elseBranch span) p)
      rw [condition_scope] at hthen
      rw [statement_ifElse h]
      exact hthen.trans (nested_fills ctx elseBranch _)
    | loop id first last direction body span =>
      have hbody := nested_fills ctx body ((ctx.loopHead id first last
        (.loop id first last direction body span) p).inScope .enterLoop)
      rw [statement_loop h]
      exact ((ctx.loopHead_adds _ _ _ _ p).exitLoop hbody).pop
    | breakLoop span =>
      rw [statement_breakLoop h, Progress.demand_scope]
      exact .refl _
    | continueLoop span =>
      rw [statement_continueLoop h, Progress.demand_scope]
      exact .refl _
    | returnValue value span =>
      rw [statement_returnValue h, returned_scope]
      exact .refl _
    | call invocation span =>
      rw [statement_call h]
      exact .refl _
    | block stmts span =>
      rw [statement_block h]
      exact (statements_adds ctx stmts (p.inScope .push)).pop
termination_by (sizeOf s, 0)

/-- Checking a statement only adds names to the innermost frame. -/
theorem statement_adds (ctx : Context) (s : Stmt) (p : Progress) :
    p.scope.Adds (ctx.statement s p).scope := by
  cases hs : s.isDeclaration with
  | false => exact (statement_fills ctx s hs p).adds
  | true =>
    cases s with
    | declare isFinal type ds span =>
      cases h : ctx.halts p with
      | true =>
        rw [statement_of_halts h]
        exact .refl _
      | false =>
        rw [statement_declare h]
        exact ctx.declareLocals_adds _ _ _ _ (p.absorb (ctx.demandType type))
    | _ => cases hs
termination_by (sizeOf s, 1)

/-- A statement in a frame of its own leaves the frames around it as they were. -/
theorem nested_fills (ctx : Context) (s : Stmt) (p : Progress) :
    p.scope.Fills (ctx.nested s p).scope :=
  (statement_adds ctx s (p.inScope .push)).pop
termination_by (sizeOf s, 2)

/-- Statements add names to the innermost frame only. -/
theorem statements_adds (ctx : Context) (ss : List Stmt) (p : Progress) :
    p.scope.Adds (ctx.statements ss p).scope := by
  cases ss with
  | nil =>
    rw [statements_nil]
    exact .refl _
  | cons s ss =>
    rw [statements_cons]
    exact (statement_adds ctx s p).trans (statements_adds ctx ss _)
termination_by (sizeOf ss, 0)

end

/-- Statements in a frame of their own leave the frames around them as they were. -/
theorem nestedAll_fills (ctx : Context) (ss : List Stmt) (p : Progress) :
    p.scope.Fills ((ctx.statements ss (p.inScope .push)).inScope .pop).scope :=
  (ctx.statements_adds ss (p.inScope .push)).pop

/-! ## Members -/

/-- Initial values of attributes change no names. -/
theorem attributeInits_scope (ctx : Context) (decl : AttributeDecl) (ds : List Declarator)
    (p : Progress) : (ctx.attributeInits decl ds p).scope = p.scope := by
  induction ds generalizing p with
  | nil => rfl
  | cons d ds ih =>
    rw [attributeInits, ih]
    cases d.init <;> rfl

/-- Initial values of attributes are not counted among those that a constructor gives. -/
theorem attributeInits_assigned (ctx : Context) (decl : AttributeDecl) (ds : List Declarator)
    (p : Progress) : (ctx.attributeInits decl ds p).assigned = p.assigned := by
  induction ds generalizing p with
  | nil => rfl
  | cons d ds ih =>
    rw [attributeInits, ih]
    cases d.init <;> rfl

/-- Parameters are added to the innermost frame. -/
theorem declareParams_adds (ctx : Context) (params : List Param) (p : Progress) :
    p.scope.Adds (ctx.declareParams params p).scope := by
  induction params generalizing p with
  | nil => exact .refl _
  | cons param params ih =>
    rw [declareParams]
    refine Scope.Adds.trans ?_ (ih _)
    split
    · rename_i hdefine
      exact Scope.adds_of_define? hdefine
    · exact .refl _

/-- Parameters give no final attribute a value. -/
@[simp] theorem declareParams_assigned (ctx : Context) (params : List Param) (p : Progress) :
    (ctx.declareParams params p).assigned = p.assigned := by
  induction params generalizing p with
  | nil => rfl
  | cons param params ih =>
    rw [declareParams, ih]
    split <;> rfl

/-- The frame of the parameters and the body is gone after a member. -/
theorem body_fills (ctx : Context) (params : List Param) (b : Block) (p : Progress) :
    p.scope.Fills (ctx.body params b p).scope :=
  ((ctx.declareParams_adds params (p.inScope .push)).trans (ctx.statements_adds b.stmts _)).pop

/-- Checking a member leaves the frames around it as they were. -/
theorem member_fills (ctx : Context) (m : Member) (p : Progress) :
    p.scope.Fills (ctx.member m p).scope := by
  match m with
  | .attribute decl span =>
    rw [member, attributeInits_scope]
    exact .refl _
  | .method decl span =>
    rw [member]
    refine Scope.Fills.trans ?_ (body_fills _ _ _ _)
    cases decl.result <;> exact .refl _
  | .ctor decl span =>
    rw [member]
    refine Scope.Fills.trans ?_ (body_fills _ _ _ _)
    rw [Progress.demand_scope]
    exact .refl _
  | .dtor decl span =>
    rw [member]
    refine Scope.Fills.trans ?_ (body_fills _ _ _ _)
    rw [Progress.demand_scope]
    exact .refl _

/-- Members leave no names behind. -/
theorem members_fills (ctx : Context) (ms : List Member) (p : Progress) :
    p.scope.Fills (ctx.members ms p).scope := by
  induction ms generalizing p with
  | nil => exact .refl _
  | cons m ms ih =>
    rw [members]
    split
    · exact .refl _
    · exact (ctx.member_fills m p).trans (ih _)

end Context

/-- Nor does a class. -/
theorem ClassTable.checkClass_fills (t : ClassTable) (walk : Walk) (c : ClassDecl)
    (p : Progress) : p.scope.Fills (t.checkClass walk c p).scope :=
  Context.members_fills _ c.members (p.note (.enterClass c.name.name))

end ClassCheck
