import ClassCheck.Proofs.Clean
import ClassCheck.Proofs.Trace

/-!
# Where the types of expressions come from

The type of an expression is primitive, or that of an object of a declared class or of the running
object, or it comes from the type of an attribute, of the result of a method or of a local name:
what references lead to, an element, or an array of such types. The types of local names are those
of parameters and declarations, and that of a loop's counter. So a property of types that these
steps keep and that all types written down have is one that the types of all expressions have,
whether or not violations come up.
-/

namespace ClassCheck

/-! ## Properties of types -/

/-- The type of an expression has a property, if it is known. -/
def ExprTy.All (P : Ty → Prop) (τ : ExprTy) : Prop := ∀ T, τ = .known T → P T

@[simp] private theorem ExprTy.all_known_iff {P : Ty → Prop} {T : Ty} :
    (ExprTy.known T).All P ↔ P T := by
  constructor
  · intro h
    exact h T rfl
  · rintro h _ ⟨⟩
    exact h

@[simp] private theorem ExprTy.all_unknown {P : Ty → Prop} : ExprTy.unknown.All P := by
  rintro _ ⟨⟩

/-- The types that a class gives to values: those of its attributes and of the results of its
methods. -/
inductive ClassView.Gives (v : ClassView) : Ty → Prop
  /-- The type of an attribute. -/
  | ofAttribute {name : String} {info : AttributeInfo} : v.attributes name = some info →
      Gives v info.type
  /-- The type of a result. -/
  | ofResult {name : String} {signature : Signature} {T : Ty} :
      v.methods name = some signature → signature.result = some T → Gives v T

/-- The types of local names have a property. -/
def Env.All (P : Ty → Prop) (Γ : Env) : Prop := ∀ frame ∈ Γ, ∀ l ∈ frame, P l.type

/-- The type of a local name that is found has the property. -/
theorem Env.All.lookup {P : Ty → Prop} {Γ : Env} (h : Γ.All P) {name : String} {l : Local}
    (hl : Γ.lookup? name = some l) : P l.type := by
  obtain ⟨frame, hframe, hfind⟩ := List.exists_of_findSome?_eq_some hl
  exact h frame hframe l (List.mem_of_find?_eq_some hfind)

/-- A frame put inside has no types. -/
theorem Env.All.push {P : Ty → Prop} {Γ : Env} (h : Γ.All P) : Env.All P ([] :: Γ) := by
  rintro frame (_ | ⟨_, hframe⟩)
  · exact List.forall_mem_nil _
  · exact h frame hframe

/-! ## The types of expressions -/

namespace Checked

/-- Without a type there is an unknown one. -/
@[simp] theorem orMismatch_value (e : Expr) (o : Option ExprTy) :
    (orMismatch e o).value = o.getD .unknown := by
  cases o <;> rfl

/-- What has no value has an unknown type as one. -/
theorem demandValue_value (e : Expr) (c : Checked ExprTy) :
    (demandValue e c).value = if c.value = .void then .unknown else c.value := by
  rw [demandValue, bind_value]
  cases c.value <;> rfl

/-- Asking for a value keeps the property. -/
theorem all_demandValue {P : Ty → Prop} {e : Expr} {c : Checked ExprTy} (h : c.value.All P) :
    (demandValue e c).value.All P := by
  rw [demandValue_value]
  split
  · exact ExprTy.all_unknown
  · exact h

end Checked

/-- A property of types is one that the types of expressions have: it holds where they come from,
and the steps from there keep it. -/
structure Context.Carries (P : Ty → Prop) (ctx : Context) (scope : Scope) : Prop where
  /-- The types of literals and operators. -/
  primitive : ∀ type, P (.primitive type)
  /-- The type of the running object. -/
  current : P (.object ctx.className)
  /-- The types of new objects. -/
  declared : ∀ c, ctx.table.contains c = true → P (.object c)
  /-- The types of members. -/
  members : ∀ c v T, ctx.table.classes c = some v → v.Gives T → P T.decayed
  /-- The types of local names. -/
  names : ∀ name l, scope.env.lookup? name = some l → P l.type.decayed
  /-- The types of array literals. -/
  array : ∀ T size, P T → P (.array T size)
  /-- The types of elements. -/
  element : ∀ T size, P (.array T size) → P T.decayed
  /-- The type of a value that is read once more. -/
  decayed : ∀ T, P T → P T.decayed

namespace Context

open Checked

/-- Reading a local name gives its type, or the built-in class. -/
theorem readLocal_value (b : Binding) :
    (readLocal b).value = if b.kind = .facility then .classRef ioClass else .value b.type := by
  unfold readLocal
  cases b.initialized <;> cases b.kind <;> rfl

private theorem denotes_of_receiver?_value {ctx : Context} {access : Expr} {τ : ExprTy}
    {r : Receiver}
    (h : (ctx.receiver? access τ).value = some r) : τ.Denotes r.className r.viaClass := by
  unfold receiver? at h
  split at h
  · cases h
    exact .ofClass
  · rw [pure_value] at h
    split at h
    · cases h
      exact .ofObject
    · cases h
  · cases h
  · cases h

/-- An attribute is found in the class before the dot, and it is static exactly if the class itself
stands there. -/
theorem hasAttribute_of_attribute? {ctx : Context} {access : Expr} {name : String} {τ : ExprTy}
    {owner : String} {info : AttributeInfo}
    (h : (ctx.attribute? access name τ).value = some (owner, info)) :
    ∃ c, τ.Denotes c info.isStatic ∧ ctx.table.classes.HasAttribute c name owner info := by
  rw [attribute?, bind_value] at h
  split at h
  · cases h
  · rename_i r hr
    split at h
    · cases h
    · rename_i hfound
      split at h
      · rename_i hstatic
        cases h
        refine ⟨r.className, ?_, (ctx.table.findAttribute?_eq_some_iff _ _ _ _).mp hfound⟩
        rw [hstatic]
        exact denotes_of_receiver?_value hr
      · cases h

private theorem hasMethod_of_method? {ctx : Context} {call : Expr} {name : String} {τ : ExprTy}
    {signature : Signature} (h : (ctx.method? call name τ).value = some signature) :
    ∃ c owner, ctx.table.classes.HasMethod c name owner signature := by
  rw [method?, bind_value] at h
  split at h
  · cases h
  · split at h
    · cases h
    · rename_i hfound
      split at h
      · cases h
        exact ⟨_, _, (ctx.table.findMethod?_eq_some_iff _ _ _ _).mp hfound⟩
      · cases h

/-- The known ones among some types are those that are known. -/
theorem mem_filterMap_known?_iff {types : List ExprTy} {T : Ty} :
    T ∈ types.filterMap ExprTy.known? ↔ .known T ∈ types := by
  rw [List.mem_filterMap]
  constructor
  · rintro ⟨τ, hτ, hT⟩
    cases τ <;> simp only [ExprTy.known?, Option.some.injEq, reduceCtorEq] at hT
    rwa [← hT]
  · intro h
    exact ⟨_, h, rfl⟩

/-- The element type of an array literal is the type of an element. -/
theorem mem_of_elementType? {types : List ExprTy} {T : Ty} (h : elementType? types = some T) :
    .known T ∈ types := by
  unfold elementType? at h
  split at h
  · cases h
  · rename_i first rest hfilter
    split at h
    · cases h
      rw [← mem_filterMap_known?_iff, hfilter]
      exact List.mem_cons_self
    · cases h

namespace Carries

variable {P : Ty → Prop} {ctx : Context} {scope : Scope} (h : ctx.Carries P scope)

include h

/-- What the type of an attribute leads to has the property. -/
theorem ofAttribute {c name owner : String} {info : AttributeInfo}
    (ha : ctx.table.classes.HasAttribute c name owner info) : P info.type.decayed := by
  obtain ⟨v, hv, hi⟩ := ha.owner_declares
  exact h.members owner v _ hv (.ofAttribute hi)

/-- So does what the type of a result leads to. -/
theorem ofResult {c name owner : String} {signature : Signature} {T : Ty}
    (hm : ctx.table.classes.HasMethod c name owner signature) (hT : signature.result = some T) :
    P T.decayed := by
  obtain ⟨v, hv, hs⟩ := hm.owner_declares
  exact h.members owner v T hv (.ofResult hs hT)

private theorem ofLocal {name : String} {b : Binding} (hb : scope.lookup? name = some b) :
    P b.type.decayed := by
  have hl : scope.env.lookup? name = some b.toLocal := by rw [Scope.lookup?_env, hb]; rfl
  exact h.names name _ hl

/-- Operations have primitive types, if any, and these have the property. -/
theorem binary? (op : BinaryOp) (a b : ExprTy) :
    ((ExprTy.binary? op a b).getD .unknown).All P := by
  unfold ExprTy.binary?
  split
  · exact ExprTy.all_unknown
  · split
    · split
      · exact ExprTy.all_known_iff.mpr (h.primitive _)
      · exact ExprTy.all_unknown
    · split
      · unfold ExprTy.operated
        split_ifs <;> simp [h.primitive]
      · exact ExprTy.all_unknown

/-- A sign in front keeps the property. -/
theorem unary? (op : UnaryOp) {a : ExprTy} (ha : a.All P) :
    ((ExprTy.unary? op a).getD .unknown).All P := by
  unfold ExprTy.unary?
  split
  · exact ExprTy.all_unknown
  · cases a with
    | known T =>
      dsimp only [ExprTy.known?]
      split_ifs
      · exact ExprTy.all_known_iff.mpr (h.decayed T (ha T rfl))
      · exact ExprTy.all_unknown
    | _ => exact ExprTy.all_unknown

/-- An element has it if the array does. -/
theorem elementResult {e : Expr} {object position : ExprTy} (ho : object.All P) :
    (Context.elementResult e object position).value.All P := by
  unfold Context.elementResult
  rw [orMismatch_value]
  split
  · split
    · rename_i T size
      exact ExprTy.all_known_iff.mpr (h.element T size (ho _ rfl))
    · exact ExprTy.all_unknown
    · exact ExprTy.all_unknown
  · exact ExprTy.all_unknown

/-- An array literal has it if its elements do. -/
theorem arrayResult {e : Expr} {types : List ExprTy} (ht : ∀ τ ∈ types, τ.All P) :
    (Context.arrayResult e types).value.All P := by
  unfold Context.arrayResult
  split
  · exact ExprTy.all_unknown
  · split
    · rename_i T hT
      exact ExprTy.all_known_iff.mpr (h.array T _ (ht _ (mem_of_elementType? hT) T rfl))
    · exact ExprTy.all_unknown

/-- The running object has it. -/
theorem selfType (e : Expr) : (ctx.selfType e).value.All P := by
  unfold Context.selfType
  split
  · exact ExprTy.all_unknown
  · exact ExprTy.all_known_iff.mpr h.current

/-- A name has it, whether it is local or that of an attribute or a class. -/
theorem identType (name : String) (e : Expr) : (ctx.identType scope name e).value.All P := by
  unfold Context.identType
  split
  · rename_i b hb
    rw [readLocal_value]
    split
    · rintro _ ⟨⟩
    · exact ExprTy.all_known_iff.mpr (h.ofLocal hb)
  · split
    · rename_i hfound
      exact ExprTy.all_known_iff.mpr
        (h.ofAttribute ((ctx.table.findAttribute?_eq_some_iff _ _ _ _).mp hfound))
    · split
      · rintro _ ⟨⟩
      · exact ExprTy.all_unknown

/-- The result of a call has it. -/
theorem callResult (call : Expr) {method : Expr} {name : String} {τ : ExprTy}
    (args : List ExprTy) :
    (ctx.callResult call (ctx.method? method name τ).value args).value.All P := by
  unfold Context.callResult
  split
  · exact ExprTy.all_unknown
  · rename_i signature hs
    obtain ⟨c, owner, hm⟩ := hasMethod_of_method? hs
    split
    · rw [pure_value]
      split
      · rename_i T hT
        exact ExprTy.all_known_iff.mpr (h.ofResult hm hT)
      · rintro _ ⟨⟩
    · exact ExprTy.all_unknown

/-- A new object has it. -/
theorem createResult (e : Expr) (className : String) (args : List ExprTy) :
    (ctx.createResult e className args).value.All P := by
  unfold Context.createResult
  split
  · rename_i hc
    dsimp only
    split
    · exact ExprTy.all_known_iff.mpr (h.declared className hc)
    · exact ExprTy.all_unknown
  · exact ExprTy.all_unknown

end Carries

mutual

/-- The type of an expression has the properties that types have where it comes from. -/
theorem exprType_all {P : Ty → Prop} {ctx : Context} {scope : Scope} (h : ctx.Carries P scope)
    (e : Expr) : (ctx.exprType scope e).value.All P := by
  cases e with
  | int value span => exact ExprTy.all_known_iff.mpr (h.primitive _)
  | float value span => exact ExprTy.all_known_iff.mpr (h.primitive _)
  | bool value span => exact ExprTy.all_known_iff.mpr (h.primitive _)
  | string value span => exact ExprTy.all_known_iff.mpr (h.primitive _)
  | nil span => rintro _ ⟨⟩
  | self span => exact h.selfType _
  | ident name span => exact h.identType name _
  | paren inner span =>
    rw [exprType]
    exact exprType_all h inner
  | binary op left right span =>
    simp only [exprType, bind_value, orMismatch_value]
    exact h.binary? op _ _
  | unary op operand span =>
    simp only [exprType, bind_value, orMismatch_value]
    exact h.unary? op (all_demandValue (exprType_all h operand))
  | index object position span =>
    simp only [exprType, bind_value]
    exact h.elementResult (all_demandValue (exprType_all h object))
  | field object name span =>
    simp only [exprType, bind_value]
    split
    · rename_i found
      obtain ⟨c, -, ha⟩ := hasAttribute_of_attribute? found
      exact ExprTy.all_known_iff.mpr (h.ofAttribute ha)
    · exact ExprTy.all_unknown
  | call receiver method args span =>
    simp only [exprType, bind_value]
    exact h.callResult _ _
  | create className args span =>
    simp only [exprType, bind_value]
    exact h.createResult _ _ _
  | array elements span =>
    simp only [exprType, bind_value]
    exact h.arrayResult (valueTypes_all h elements)

private theorem valueTypes_all {P : Ty → Prop} {ctx : Context} {scope : Scope}
    (h : ctx.Carries P scope)
    (es : List Expr) : ∀ τ ∈ (ctx.valueTypes scope es).value, τ.All P := by
  cases es with
  | nil =>
    rw [valueTypes]
    simp
  | cons e es =>
    simp only [valueTypes, bind_value, pure_value, List.forall_mem_cons]
    exact ⟨all_demandValue (exprType_all h e), valueTypes_all h es⟩

end

/-- Values have it. -/
theorem valueType_all {P : Ty → Prop} {ctx : Context} {scope : Scope} (h : ctx.Carries P scope)
    (e : Expr) : (ctx.valueType scope e).value.All P := all_demandValue (exprType_all h e)

/-- What a name takes is the type that it reads as. -/
theorem writeName_all {P : Ty → Prop} {ctx : Context} {p : Progress} (h : ctx.Carries P p.scope)
    (stmt : Stmt) (name : String) (span : Span) : (ctx.writeName stmt name span p).1.All P := by
  unfold writeName
  split
  · rename_i b hb
    exact ExprTy.all_known_iff.mpr (h.ofLocal hb)
  · split
    · rename_i hfound
      exact ExprTy.all_known_iff.mpr
        (h.ofAttribute ((ctx.table.findAttribute?_eq_some_iff _ _ _ _).mp hfound))
    · split <;> exact ExprTy.all_unknown

/-- The place that an assignment goes to has the properties that types have where its type comes
from. -/
theorem target_all {P : Ty → Prop} {ctx : Context} {p : Progress} (h : ctx.Carries P p.scope)
    (stmt : Stmt) (place : Expr) : (ctx.target stmt place p).1.All P := by
  unfold target
  split
  · exact writeName_all h stmt _ _
  · dsimp only [withValue]
    split
    · rename_i hfound
      obtain ⟨c, -, ha⟩ := hasAttribute_of_attribute? hfound
      exact ExprTy.all_known_iff.mpr (h.ofAttribute ha)
    · exact ExprTy.all_unknown
  · exact valueType_all h place

end Context

/-! ## The types of local names -/

/-- A declaration keeps the property of local names if its type has it. -/
theorem Scope.all_of_define? {P : Ty → Prop} {s s' : Scope} {b : Binding} (hs : s.env.All P)
    (hb : P b.type) (h : s.define? b = some s') : s'.env.All P := by
  rw [Scope.env_of_define? h]
  rintro frame (_ | ⟨_, hframe⟩) l hl
  · rcases List.mem_append.mp hl with hl | hl
    · exact hs _ List.mem_cons_self l hl
    · obtain rfl := List.mem_singleton.mp hl
      exact hb
  · exact hs frame (List.mem_cons_of_mem _ hframe) l hl

/-- So does an attempt at one. -/
theorem Progress.define_all {P : Ty → Prop} {p : Progress} {b : Binding} {span : Option Span}
    (hp : p.scope.env.All P) (hb : P b.type) : (p.define b span).scope.env.All P := by
  unfold define
  cases h : p.scope.define? b with
  | some scope => exact Scope.all_of_define? hp hb h
  | none => exact hp

/-- The type that a declaration of local names starts with. -/
def Stmt.declaredType? : Stmt → Option WrittenType
  | .declare _ type _ _ => some type
  | _ => none

namespace Context

variable {P : Ty → Prop} {ctx : Context}

private theorem declareLocals_all {isFinal : Bool} {T : Ty} {stmt : Stmt} (hT : P T)
    (ds : List Declarator) {p : Progress} (hp : p.scope.env.All P) :
    (ctx.declareLocals isFinal T stmt ds p).scope.env.All P := by
  induction ds generalizing p with
  | nil => exact hp
  | cons d ds ih =>
    rw [declareLocals]
    split
    · exact hp
    · exact ih (Progress.define_all (by rwa [localInit_scope]) hT)

/-- The counter of a loop is a whole number. -/
theorem counter_all {id : Ident} {stmt : Stmt} {p : Progress} (hint : P .int)
    (hp : p.scope.env.All P) : (ctx.counter id stmt p).scope.env.All P := by
  rw [counter]
  split
  · dsimp only
    rw [Progress.demand_scope, Progress.demand_scope]
    exact hp
  · exact Progress.define_all hp hint

/-- The head of a loop keeps it if integers have it. -/
theorem loopHead_all {id : Ident} {first last : Expr} {stmt : Stmt} {p : Progress}
    (hint : P .int) (hp : p.scope.env.All P) :
    (ctx.loopHead id first last stmt p).scope.env.All P := by
  rw [loopHead, bounds_scope]
  exact counter_all (p := p.inScope .push) hint hp.push

/-- A statement adds only names of the type that it declares. -/
theorem statement_all {s : Stmt} {p : Progress} (hp : p.scope.env.All P)
    (hs : ∀ isFinal type ds span, s = .declare isFinal type ds span → ctx.halts p = false →
      P (.ofWritten type)) :
    (ctx.statement s p).scope.env.All P := by
  cases hdeclares : s.isDeclaration with
  | false =>
    -- Names declared inside a statement are gone after it.
    rw [Scope.env_eq_of_shape (ctx.statement_fills s hdeclares p).shape]
    exact hp
  | true =>
    cases s with
    | declare isFinal type ds span =>
      cases hhalts : ctx.halts p with
      | true =>
        rw [statement_of_halts hhalts]
        exact hp
      | false =>
        rw [statement_declare hhalts]
        exact declareLocals_all (hs isFinal type ds span rfl hhalts) ds hp
    | _ => cases hdeclares

/-- Parameters keep it if their types have it. -/
theorem declareParams_all {params : List Param} {p : Progress} (hp : p.scope.env.All P)
    (hparams : ∀ param ∈ params, P (.ofWritten param.type)) :
    (ctx.declareParams params p).scope.env.All P := by
  induction params generalizing p with
  | nil => exact hp
  | cons param params ih =>
    rw [List.forall_mem_cons] at hparams
    rw [declareParams]
    refine ih ?_ hparams.2
    split
    · rename_i hdefine
      exact Scope.all_of_define? hp hparams.1 hdefine
    · exact hp

/-- What a statement has besides statements adds only names of the type that it declares, and a
counter. -/
theorem own_all {s : Stmt} {p : Progress} (hint : P .int) (hp : p.scope.env.All P)
    (hs : ∀ type ∈ s.declaredType?, P (.ofWritten type)) : (ctx.own s p).scope.env.All P := by
  cases s with
  | declare isFinal type ds span => exact declareLocals_all (hs type rfl) ds hp
  | assign place value span =>
    rw [own, Scope.env_eq_of_shape (ctx.assignment_fills place value _ p).shape]
    exact hp
  | ifThen cond thenBranch span => rwa [own, condition_scope]
  | ifElse cond thenBranch elseBranch span => rwa [own, condition_scope]
  | loop id first last direction body span => exact loopHead_all hint hp
  | breakLoop span => rwa [own, Progress.demand_scope]
  | continueLoop span => rwa [own, Progress.demand_scope]
  | returnValue value span => rwa [own, returned_scope]
  | call invocation span => exact hp
  | block stmts span => exact hp

end Context

/-! ## Steps of a check -/

namespace Step

/-- The types that a step declares names with. -/
def declaredTypes (p : Progress) : Step → List WrittenType
  | .params _ ps => ps.map (·.type)
  | .stmt ctx place => if ctx.halts p then [] else place.stmt.declaredType?.toList
  | _ => []

/-- A step keeps what is true of the types of all names, if it is true of those that it declares
names with. -/
theorem run_all {P : Ty → Prop} (hint : P .int) {step : Step} {p : Progress}
    (hp : p.scope.env.All P) (hstep : ∀ type ∈ step.declaredTypes p, P (.ofWritten type)) :
    (step.run p).scope.env.All P := by
  cases step with
  | enterClass name => exact hp
  | head ctx m => rwa [run, Context.memberHead_scope]
  | params ctx ps =>
    exact Context.declareParams_all hp fun _ hparam => hstep _ (List.mem_map_of_mem hparam)
  | stmt ctx place =>
    rw [declaredTypes] at hstep
    rw [run]
    split
    · exact hp
    · rename_i hhalts
      rw [if_neg hhalts] at hstep
      exact Context.own_all hint hp fun type htype => hstep type (Option.mem_toList.mpr htype)
  | push => exact hp.push
  | pop =>
    obtain ⟨⟨inner, _ | ⟨frame, outer⟩⟩, assigned, events⟩ := p
    · exact hp
    · exact (List.forall_mem_cons.mp hp).2
  | enterLoop => exact hp
  | exitLoop => exact hp

end Step

end ClassCheck
