import ClassCheck.Proofs.ExprTyping
import ClassCheck.Proofs.Statics

/-!
# The check of statements decides their static semantics

In a state without violations that names only declared classes, a statement is checked without a
violation exactly if it is well formed there, and then the check arrives at the names and the
final attributes that the static semantics says. First the parts of statements are settled one
by one, each with its rule, then the statements by recursion on their structure.
-/

namespace ClassCheck

/-! ## Constant expressions -/

mutual

/-- An expression is constant just if no part of it is found that is not. -/
theorem Expr.firstNonConstant?_eq_none_iff (e : Expr) :
    e.firstNonConstant? = none ↔ e.Constant := by
  cases e with
  | int value span => exact ⟨fun _ => .int, fun _ => rfl⟩
  | float value span => exact ⟨fun _ => .float, fun _ => rfl⟩
  | bool value span => exact ⟨fun _ => .bool, fun _ => rfl⟩
  | string value span => exact ⟨fun _ => .string, fun _ => rfl⟩
  | binary op left right span =>
    rw [firstNonConstant?, Option.or_eq_none_iff, left.firstNonConstant?_eq_none_iff,
      right.firstNonConstant?_eq_none_iff]
    exact ⟨fun h => .binary h.1 h.2, fun h => by cases h with | binary hl hr => exact ⟨hl, hr⟩⟩
  | unary op operand span =>
    rw [firstNonConstant?, operand.firstNonConstant?_eq_none_iff]
    exact ⟨.unary, fun h => by cases h with | unary h => exact h⟩
  | paren inner span =>
    rw [firstNonConstant?, inner.firstNonConstant?_eq_none_iff]
    exact ⟨.paren, fun h => by cases h with | paren h => exact h⟩
  | array elements span =>
    rw [firstNonConstant?, firstNonConstantOf?_eq_none_iff elements]
    exact ⟨.array, fun h => by cases h with | array h => exact h⟩
  | _ => exact ⟨fun h => by simp [firstNonConstant?] at h, fun h => by cases h⟩

private theorem Expr.firstNonConstantOf?_eq_none_iff (es : List Expr) :
    Expr.firstNonConstantOf? es = none ↔ ∀ e ∈ es, e.Constant := by
  cases es with
  | nil => exact ⟨fun _ => nofun, fun _ => rfl⟩
  | cons e es =>
    rw [Expr.firstNonConstantOf?, Option.or_eq_none_iff, e.firstNonConstant?_eq_none_iff,
      Expr.firstNonConstantOf?_eq_none_iff es, List.forall_mem_cons]

end

namespace Context

open Checked

/-! ## Values -/

/-- A value is yielded just if the expression has that type and is not without a value. -/
theorem yields_valueType_iff {ctx : Context} {scope : Scope} (hc : ctx.Closed scope) {e : Expr}
    {τ : ExprTy} :
    (ctx.valueType scope e).Yields τ ↔ HasType ctx.setting scope.env e τ ∧ τ ≠ .void := by
  rw [valueType, yields_demandValue_iff]
  exact and_congr_left fun _ => ⟨hasType_of_yields hc e, yields_of_hasType e⟩

/-- A value is checked without a violation, to a type of some kind, exactly if it has such a
type. -/
theorem clean_valueType_iff {ctx : Context} {scope : Scope} (hc : ctx.Closed scope) {e : Expr}
    {P : ExprTy → Prop} :
    (ctx.valueType scope e).Clean ∧ P (ctx.valueType scope e).value ↔
      ∃ τ, HasType ctx.setting scope.env e τ ∧ τ ≠ .void ∧ P τ := by
  rw [← exists_yields_iff]
  refine exists_congr fun τ => ?_
  rw [yields_valueType_iff hc, and_assoc]

/-- A check finds no violation and an integer just if the expression has that type. -/
theorem clean_int_iff {ctx : Context} {scope : Scope} (hc : ctx.Closed scope) {e : Expr} :
    (ctx.valueType scope e).Clean ∧ (ctx.valueType scope e).value.admitsInt = true ↔
      HasType ctx.setting scope.env e (.known .int) := by
  rw [clean_valueType_iff hc (P := fun τ => τ.admitsInt = true)]
  constructor
  · rintro ⟨τ, htype, -, hi⟩
    rwa [(ExprTy.admitsInt_iff htype.isPlain htype.ne_unknown).mp hi] at htype
  · intro h
    exact ⟨_, h, by simp, rfl⟩

/-- The same for a truth value. -/
theorem clean_boolean_iff {ctx : Context} {scope : Scope} (hc : ctx.Closed scope) {e : Expr} :
    (ctx.valueType scope e).Clean ∧ (ctx.valueType scope e).value.admitsBoolean = true ↔
      HasType ctx.setting scope.env e (.known .boolean) := by
  rw [clean_valueType_iff hc (P := fun τ => τ.admitsBoolean = true)]
  constructor
  · rintro ⟨τ, htype, -, hb⟩
    rwa [(ExprTy.admitsBoolean_iff htype.isPlain htype.ne_unknown).mp hb] at htype
  · intro h
    exact ⟨_, h, by simp, rfl⟩

/-- A value is checked without a violation and fits a declared type exactly if it has a type that
fits. -/
theorem clean_fitting_iff {ctx : Context} {scope : Scope} (hc : ctx.Closed scope) {e : Expr}
    {T : Ty} :
    (ctx.valueType scope e).Clean ∧
        ctx.table.compatible T (ctx.valueType scope e).value = true ↔
      ∃ τ, HasType ctx.setting scope.env e τ ∧ ctx.table.classes.Fits T τ := by
  rw [clean_valueType_iff hc (P := fun τ => ctx.table.compatible T τ = true)]
  constructor
  · rintro ⟨τ, htype, -, hfits⟩
    exact ⟨τ, htype, (ctx.table.compatible_iff T htype.isPlain htype.ne_unknown).mp hfits⟩
  · rintro ⟨τ, htype, hfits⟩
    exact ⟨τ, htype, hfits.ne_void,
      (ctx.table.compatible_iff T htype.isPlain htype.ne_unknown).mpr hfits⟩

private theorem yields_initializer_iff {ctx : Context} {scope : Scope} (hc : ctx.Closed scope)
    {isFinal : Bool} {T : Ty} {init : Expr} {blame : Rule → Violation} {u : Unit} :
    (ctx.initializer scope isFinal T init blame).Yields u ↔
      Initializes ctx.setting scope.env isFinal T init := by
  have hform : (ctx.initializer scope isFinal T init blame).Yields u ↔
      ∃ τ, (ctx.valueType scope init).Yields τ ∧ ctx.table.compatible T τ = true ∧
        (isFinal = true → init.firstNonConstant? = none) := by
    unfold initializer
    rw [yields_bind_iff]
    refine exists_congr fun τ => and_congr_right fun _ => ?_
    cases ctx.table.compatible T τ <;> cases isFinal <;> cases init.firstNonConstant? <;> simp
  rw [hform, exists_yields_iff, ← and_assoc, clean_fitting_iff hc,
    init.firstNonConstant?_eq_none_iff]
  rfl

/-- An initial value is checked without a violation just if it may be one for the type. -/
theorem clean_initializer_iff {ctx : Context} {scope : Scope} (hc : ctx.Closed scope)
    {isFinal : Bool} {T : Ty} {init : Expr} {blame : Rule → Violation} :
    (ctx.initializer scope isFinal T init blame).Clean ↔
      Initializes ctx.setting scope.env isFinal T init :=
  ⟨fun h => (yields_initializer_iff hc).mp h.yields,
    fun h => ((yields_initializer_iff hc (u := ())).mpr h).1⟩

section

variable {ctx : Context} {p : Progress} (hc : ctx.Closed p.scope) (hp : p.Clean)

include hc hp

/-- A condition passes just if it has the type of truth values. -/
theorem clean_condition_iff {e : Expr} {stmt : Stmt} :
    (ctx.condition e stmt p).Clean ↔ HasType ctx.setting p.scope.env e (.known .boolean) := by
  simp only [condition, withValue, Progress.clean_demand_iff, Progress.clean_absorb_iff, hp,
    true_and]
  exact clean_boolean_iff hc

/-- The bounds of a loop pass just if both are integers. -/
theorem clean_bounds_iff {first last : Expr} {stmt : Stmt} :
    (ctx.bounds first last stmt p).Clean ↔
      HasType ctx.setting p.scope.env first (.known .int) ∧
        HasType ctx.setting p.scope.env last (.known .int) := by
  simp only [bounds, withValue, Progress.clean_demand_iff, Progress.clean_absorb_iff, hp,
    true_and, Bool.and_eq_true, Progress.absorb_scope]
  rw [and_and_and_comm, clean_int_iff hc, clean_int_iff hc]

/-- A return passes just if it fits the result of the method. -/
theorem clean_returned_iff {value : Option Expr} {stmt : Stmt} :
    (ctx.returned value stmt p).Clean ↔
      match value with
      | none => ctx.result = none
      | some e => ∃ T τ, ctx.result = some T ∧ HasType ctx.setting p.scope.env e τ ∧
          ctx.table.classes.Fits T τ := by
  cases value with
  | none => simp [returned, hp]
  | some e =>
    simp only [returned, withValue, Progress.clean_demand_iff, Progress.clean_absorb_iff, hp,
      true_and]
    cases ctx.result with
    | none => simp
    | some T =>
      simp only [Option.any_some, Option.some.injEq, exists_and_left, exists_eq_left']
      exact clean_fitting_iff hc

end

/-! ## Declarations -/

/-- A scope that names only declared classes does so with one more such name. -/
theorem Closed.define {ctx : Context} {p : Progress} {b : Binding} {span : Option Span}
    (hc : ctx.Closed p.scope) (hb : b.type.Within fun c => ctx.table.contains c = true) :
    ctx.Closed (p.define b span).scope :=
  ⟨hc.current, hc.table, Progress.define_within hc.scope hb⟩

private theorem clean_localInit_iff {ctx : Context} {p : Progress} (hc : ctx.Closed p.scope)
    {isFinal : Bool} {T : Ty} {stmt : Stmt} {d : Declarator} :
    (ctx.localInit isFinal T stmt d p).Clean ↔
      p.Clean ∧ ∀ init, d.init = some init →
        Initializes ctx.setting p.scope.env isFinal T init := by
  unfold localInit
  cases d.init with
  | none => simp
  | some init =>
    rw [Progress.clean_absorb_iff, clean_initializer_iff hc]
    simp

/-- Local names are declared without a violation exactly if each is new and its initial value is
well formed. -/
theorem clean_declareLocals_iff {ctx : Context} {isFinal : Bool} {T : Ty} {stmt : Stmt}
    (hT : T.Within fun c => ctx.table.contains c = true) (ds : List Declarator) {p : Progress}
    (hc : ctx.Closed p.scope) (hp : p.Clean) {Γ : Env} :
    (ctx.declareLocals isFinal T stmt ds p).Clean ∧
        (ctx.declareLocals isFinal T stmt ds p).scope.env = Γ ↔
      Declares ctx.setting isFinal T p.scope.env ds Γ := by
  induction ds generalizing p with
  | nil =>
    constructor
    · rintro ⟨-, rfl⟩
      exact .nil
    · intro h
      cases h
      exact ⟨hp, rfl⟩
  | cons d ds ih =>
    rw [declareLocals]
    split
    · rename_i hlocal
      obtain ⟨l, hl, hname⟩ := (p.scope.lookupLocal?_isSome_iff d.name).mp hlocal
      refine ⟨fun h => absurd h.1 Progress.not_clean_report, fun h => ?_⟩
      cases h with | cons hnew _ _ =>
      exact absurd hname (hnew l hl)
    · rename_i hlocal
      have hnew : ∀ l ∈ p.scope.inner.locals, l.name ≠ d.name := by
        intro l hl hname
        exact hlocal ((p.scope.lookupLocal?_isSome_iff d.name).mpr ⟨l, hl, hname⟩)
      have hinit : (ctx.localInit isFinal T stmt d p).Clean ↔ _ := clean_localInit_iff hc
      have hscope := ctx.localInit_scope isFinal T stmt d p
      generalize ctx.localInit isFinal T stmt d p = q at hinit hscope
      have henv : (q.define ⟨d.name, if isFinal then .constant else .variable, T,
          d.init.isSome⟩ none).scope.env = _ := Progress.env_define none (by rwa [hscope])
      have hc' : ctx.Closed (q.define ⟨d.name, if isFinal then .constant else .variable, T,
          d.init.isSome⟩ none).scope := Closed.define (by rwa [hscope]) hT
      rw [hscope] at henv
      constructor
      · rintro ⟨hclean, hΓ⟩
        have hdefine := hclean.of_grows (ctx.declareLocals_grows _ _ _ _ _)
        have hrest := (ih hc' hdefine).mp ⟨hclean, hΓ⟩
        rw [henv] at hrest
        exact .cons hnew (hinit.mp (Progress.clean_define_iff.mp hdefine)).2 hrest
      · intro h
        cases h with | cons _ hinits hrest =>
        have hq : q.Clean := hinit.mpr ⟨hp, hinits⟩
        exact (ih hc' (Progress.clean_define_iff.mpr hq)).mpr (by rwa [henv])

/-! ## Places -/

/-- A name can be assigned to just if the static semantics says that it is writable. -/
theorem isAssignable_iff (b : Binding) : b.isAssignable = true ↔ b.toLocal.IsWritable := by
  unfold Binding.isAssignable Local.IsWritable
  have href : b.type.isReference = true ↔ ∃ T, b.type = .reference T := by
    cases b.type <;> simp [Ty.isReference]
  cases hk : b.kind <;> simp [Binding.toLocal, hk, href]

/-- The names that an assignment can go to. -/
theorem writeName_iff {ctx : Context} {p : Progress} (hp : p.Clean) {stmt : Stmt}
    {name : String} {span : Span} {τ : ExprTy} {A : List String} :
    (ctx.writeName stmt name span p).2.Clean ∧ (ctx.writeName stmt name span p).1 = τ ∧
        (ctx.writeName stmt name span p).2.assigned = A ↔
      ∃ T, τ = .known T ∧
        Writes ctx.setting p.scope.env p.assigned (.ident name span) T A := by
  have henv := p.scope.lookup?_env name
  unfold writeName
  cases hb : p.scope.lookup? name with
  | some b =>
    have hl : p.scope.env.lookup? name = some b.toLocal := by rw [henv, hb]; rfl
    dsimp only
    constructor
    · split
      · rename_i hwrite
        rintro ⟨-, rfl, rfl⟩
        exact ⟨_, rfl, .localName hl ((isAssignable_iff b).mp hwrite)⟩
      · rintro ⟨hclean, -⟩
        exact absurd hclean Progress.not_clean_report
    · rintro ⟨T, rfl, h⟩
      cases h with
      | localName hl' hwrite =>
        obtain rfl := Option.some.inj (hl.symm.trans hl')
        rw [if_pos ((isAssignable_iff b).mpr hwrite)]
        exact ⟨hp, rfl, rfl⟩
      | attributeName hl' _ _ =>
        rw [hl] at hl'
        cases hl'
  | none =>
    have hl : p.scope.env.lookup? name = none := by rw [henv, hb]; rfl
    dsimp only
    cases hfound : ctx.table.findAttribute? ctx.className name with
    | some found =>
      obtain ⟨owner, info⟩ := found
      have ha := (ctx.table.findAttribute?_eq_some_iff _ _ _ _).mp hfound
      dsimp only
      rw [Progress.clean_demand_iff, Progress.demand_assigned]
      constructor
      · rintro ⟨⟨-, hfinal⟩, rfl, rfl⟩
        exact ⟨_, rfl, .attributeName hl ha (by simpa using hfinal)⟩
      · rintro ⟨T, rfl, h⟩
        cases h with
        | localName hl' _ =>
          rw [hl] at hl'
          cases hl'
        | attributeName _ ha' hfinal =>
          obtain ⟨-, rfl⟩ := ha.unique ha'
          exact ⟨⟨hp, by simp [hfinal]⟩, rfl, rfl⟩
    | none =>
      have hno := (ctx.table.findAttribute?_eq_none_iff _ _).mp hfound
      dsimp only
      constructor
      · intro h
        split at h <;> exact absurd h.1 Progress.not_clean_report
      · rintro ⟨T, rfl, h⟩
        cases h with
        | localName hl' _ =>
          rw [hl] at hl'
          cases hl'
        | attributeName _ ha _ => exact absurd ⟨_, _, ha⟩ hno

/-- The type of an expression names only declared classes if all types around it do. -/
theorem within_of_hasType {ctx : Context} {scope : Scope} (hc : ctx.Closed scope) {e : Expr}
    {τ : ExprTy} (h : HasType ctx.setting scope.env e τ) :
    τ.Within fun c => ctx.table.contains c = true :=
  within_of_yields hc (yields_of_hasType e h)

/-- An expression is the running object just if it is `this`, in any number of parentheses. -/
theorem isSelf_iff (e : Expr) : e.isSelf = true ↔ ∃ span, e.bare = .self span := by
  unfold Expr.isSelf
  split
  · rename_i span h
    exact ⟨fun _ => ⟨span, h⟩, fun _ => rfl⟩
  · rename_i hno
    refine ⟨nofun, ?_⟩
    rintro ⟨span, h⟩
    exact absurd h (hno span)

/-- A constructor may give a final attribute of its class a value on `this`, if it has none yet. -/
theorem mayInitialize_iff {ctx : Context} {p : Progress} {object : Expr} {name owner : String}
    {info : AttributeInfo} :
    ctx.mayInitialize p object name owner info = true ↔
      ctx.inCtor = true ∧ info.hasInit = false ∧ owner = ctx.className ∧
        (∃ span, object.bare = .self span) ∧ name ∉ p.assigned := by
  simp [mayInitialize, ← isSelf_iff, and_assoc]

/-- An attribute behind a dot can be written if it is not final, or for the first time by a
constructor of its class. -/
theorem clean_writeAttribute_iff {ctx : Context} {p : Progress} {stmt : Stmt} {object : Expr}
    {name owner : String} {info : AttributeInfo} {A : List String} :
    (ctx.writeAttribute stmt object name owner info p).Clean ∧
        (ctx.writeAttribute stmt object name owner info p).assigned = A ↔
      p.Clean ∧ (info.isFinal = false ∧ A = p.assigned ∨
        info.isFinal = true ∧ ctx.inCtor = true ∧ info.hasInit = false ∧ owner = ctx.className ∧
          (∃ span, object.bare = .self span) ∧ name ∉ p.assigned ∧ A = name :: p.assigned) := by
  unfold writeAttribute
  cases info.isFinal with
  | false =>
    rw [if_neg Bool.false_ne_true]
    constructor
    · rintro ⟨hp, rfl⟩
      exact ⟨hp, Or.inl ⟨rfl, rfl⟩⟩
    · rintro ⟨hp, ⟨-, rfl⟩ | ⟨hfinal, -⟩⟩
      · exact ⟨hp, rfl⟩
      · cases hfinal
  | true =>
    rw [if_pos rfl]
    split
    · rename_i hinit
      obtain ⟨h₁, h₂, h₃, h₄, h₅⟩ := mayInitialize_iff.mp hinit
      constructor
      · rintro ⟨hp, rfl⟩
        exact ⟨hp, Or.inr ⟨rfl, h₁, h₂, h₃, h₄, h₅, rfl⟩⟩
      · rintro ⟨hp, ⟨hfinal, -⟩ | ⟨-, -, -, -, -, -, rfl⟩⟩
        · cases hfinal
        · exact ⟨hp, rfl⟩
    · rename_i hinit
      constructor
      · rintro ⟨hclean, -⟩
        exact absurd hclean Progress.not_clean_report
      · rintro ⟨-, ⟨hfinal, -⟩ | ⟨-, h₁, h₂, h₃, h₄, h₅, -⟩⟩
        · cases hfinal
        · exact absurd (mayInitialize_iff.mpr ⟨h₁, h₂, h₃, h₄, h₅⟩) hinit

/-- An object and an attribute of it are checked without a violation exactly if the object has a
type with that attribute. -/
theorem yields_access_iff {ctx : Context} {scope : Scope} (hc : ctx.Closed scope)
    {object access : Expr} {name : String} {found : Option (String × AttributeInfo)} :
    (ctx.valueType scope object >>= ctx.attribute? access name).Yields found ↔
      ∃ τ c owner info, HasType ctx.setting scope.env object τ ∧ found = some (owner, info) ∧
        τ.Denotes c info.isStatic ∧ ctx.table.classes.HasAttribute c name owner info := by
  rw [yields_bind_iff]
  constructor
  · rintro ⟨τ, hvalue, hfound⟩
    obtain ⟨htype, -⟩ := (yields_valueType_iff hc).mp hvalue
    obtain ⟨c, owner, info, hsome, hd, ha⟩ :=
      denotes_of_attribute? htype.ne_unknown (within_of_hasType hc htype) hfound
    exact ⟨τ, c, owner, info, htype, hsome, hd, ha⟩
  · rintro ⟨τ, c, owner, info, htype, rfl, hd, ha⟩
    exact ⟨τ, (yields_valueType_iff hc).mpr ⟨htype, hd.ne_void⟩, attribute?_of_denotes hd ha⟩

/-- A write to an attribute finds the attribute first, and then writes to it. -/
theorem target_field (ctx : Context) (stmt : Stmt) (object : Expr) (name : String) (span : Span)
    (p : Progress) :
    let c := ctx.valueType p.scope object >>= ctx.attribute? (.field object name span) name
    ctx.target stmt (.field object name span) p =
      match c.value with
      | some (owner, info) =>
        (.value info.type, ctx.writeAttribute stmt object name owner info (p.absorb c))
      | none => (.unknown, p.absorb c) := by
  simp only [target, withValue, Progress.absorb, List.append_assoc]
  rfl

section

variable {ctx : Context} {p : Progress} (hc : ctx.Closed p.scope) (hp : p.Clean) {stmt : Stmt}
  {τ : ExprTy} {A : List String}

include hc hp

/-- A write to an attribute passes just if the static semantics allows it. -/
theorem fieldTarget_iff {object : Expr} {name : String} {span : Span} :
    (ctx.target stmt (.field object name span) p).2.Clean ∧
        (ctx.target stmt (.field object name span) p).1 = τ ∧
        (ctx.target stmt (.field object name span) p).2.assigned = A ↔
      ∃ T, τ = .known T ∧
        Writes ctx.setting p.scope.env p.assigned (.field object name span) T A := by
  have haccess := @yields_access_iff ctx p.scope hc object (.field object name span) name
  rw [target_field]
  generalize ctx.valueType p.scope object >>= ctx.attribute? (.field object name span) name = c
    at haccess
  constructor
  · intro h
    split at h
    · rename_i owner info hfound
      obtain ⟨hwrite, rfl, hA⟩ := h
      obtain ⟨hclean, hcase⟩ := clean_writeAttribute_iff.mp ⟨hwrite, hA⟩
      obtain ⟨τ, cls, owner', info', htype, hsome, hd, ha⟩ :=
        haccess.mp (Progress.clean_absorb_iff.mp hclean).2.yields
      obtain ⟨rfl, rfl⟩ := Prod.mk.inj (Option.some.inj (hfound.symm.trans hsome))
      refine ⟨_, rfl, ?_⟩
      rcases hcase with ⟨hfinal, rfl⟩ | ⟨hfinal, hctor, hinit, rfl, ⟨span, hself⟩, hnew, rfl⟩
      · exact .field htype hd ha hfinal
      · exact .firstValue htype hd ha hfinal hctor hself hinit hnew
    · rename_i hfound
      obtain ⟨τ, cls, owner, info, -, hsome, -⟩ :=
        haccess.mp (Progress.clean_absorb_iff.mp h.1).2.yields
      rw [hfound] at hsome
      cases hsome
  · rintro ⟨T, rfl, h⟩
    cases h with
    | field htype hd ha hfinal =>
      obtain ⟨hclean, hfound⟩ := haccess.mpr ⟨_, _, _, _, htype, rfl, hd, ha⟩
      rw [hfound]
      exact and_left_comm.mp ⟨rfl, clean_writeAttribute_iff.mpr
        ⟨Progress.clean_absorb_iff.mpr ⟨hp, hclean⟩, Or.inl ⟨hfinal, rfl⟩⟩⟩
    | firstValue htype hd ha hfinal hctor hself hinit hnew =>
      obtain ⟨hclean, hfound⟩ := haccess.mpr ⟨_, _, _, _, htype, rfl, hd, ha⟩
      rw [hfound]
      exact and_left_comm.mp ⟨rfl, clean_writeAttribute_iff.mpr
        ⟨Progress.clean_absorb_iff.mpr ⟨hp, hclean⟩,
          Or.inr ⟨hfinal, hctor, hinit, rfl, ⟨_, hself⟩, hnew, rfl⟩⟩⟩

/-- A place is checked without a violation exactly if it can be written, and it takes the type
that the check yields. -/
theorem target_iff {place : Expr} (hplace : place.isPlace = true) :
    (ctx.target stmt place p).2.Clean ∧ (ctx.target stmt place p).1 = τ ∧
        (ctx.target stmt place p).2.assigned = A ↔
      ∃ T, τ = .known T ∧ Writes ctx.setting p.scope.env p.assigned place T A := by
  cases place with
  | ident name span => exact writeName_iff hp
  | field object name span => exact fieldTarget_iff hc hp
  | index object position span =>
    have hvalue := @yields_valueType_iff ctx p.scope hc (.index object position span)
    simp only [target, withValue, Progress.clean_absorb_iff, Progress.absorb_assigned]
    constructor
    · rintro ⟨⟨-, hclean⟩, rfl, rfl⟩
      obtain ⟨htype, -⟩ := hvalue.mp hclean.yields
      generalize (ctx.valueType p.scope (.index object position span)).value = τ at htype
      cases htype with | index ho hi =>
      exact ⟨_, rfl, .element (.index ho hi)⟩
    · rintro ⟨T, rfl, h⟩
      cases h with | element htype =>
      obtain ⟨hclean, hτ⟩ := hvalue.mpr ⟨htype, by simp⟩
      exact ⟨⟨hp, hclean⟩, hτ, rfl⟩
  | _ => cases hplace

/-- An assignment passes just if its value fits the place. -/
theorem clean_assignment_iff {place value : Expr} (hplace : place.isPlace = true) :
    (ctx.assignment place value stmt p).Clean ∧
        (ctx.assignment place value stmt p).assigned = A ↔
      ∃ τ T, HasType ctx.setting p.scope.env value τ ∧
        Writes ctx.setting p.scope.env p.assigned place T A ∧ ctx.table.classes.Fits T τ := by
  have hvalue := @clean_fitting_iff ctx p.scope hc value
  have hgrows := ctx.target_grows stmt place (p.absorb (ctx.valueType p.scope value))
  have htarget : (ctx.valueType p.scope value).Clean → ∀ τ A, _ ↔ _ := fun hclean τ A =>
    @target_iff ctx (p.absorb (ctx.valueType p.scope value)) hc
      (Progress.clean_absorb_iff.mpr ⟨hp, hclean⟩) stmt τ A place hplace
  simp only [assignment, withValue]
  generalize ctx.valueType p.scope value = v at hvalue hgrows htarget
  generalize ctx.target stmt place (p.absorb v) = q at hgrows htarget
  obtain ⟨type, q⟩ := q
  have hclean : q.Clean → v.Clean := fun h =>
    (Progress.clean_absorb_iff.mp (h.of_grows hgrows)).2
  constructor
  · intro h
    split at h
    · rename_i expected q' hq
      cases hq
      rw [Progress.clean_demand_iff, Progress.demand_assigned] at h
      obtain ⟨⟨hq, hfits⟩, rfl⟩ := h
      obtain ⟨τ, htype, hfits⟩ := hvalue.mp ⟨hclean hq, hfits⟩
      obtain ⟨T, hT, hwrites⟩ := (htarget (hclean hq) _ _).mp ⟨hq, rfl, rfl⟩
      cases hT
      exact ⟨τ, expected, htype, hwrites, hfits⟩
    · rename_i q' hunknown hq
      cases hq
      obtain ⟨T, hT, -⟩ := (htarget (hclean h.1) _ _).mp ⟨h.1, rfl, rfl⟩
      exact absurd hT (hunknown T)
  · rintro ⟨τ, T, htype, hwrites, hfits⟩
    obtain ⟨hv, hfits⟩ := hvalue.mpr ⟨τ, htype, hfits⟩
    obtain ⟨hq, rfl, rfl⟩ := (htarget hv _ _).mpr ⟨T, rfl, hwrites⟩
    dsimp only
    rw [Progress.clean_demand_iff, Progress.demand_assigned]
    exact ⟨⟨hq, hfits⟩, rfl⟩

end

/-! ## Counters -/

/-- A loop whose frame is still empty finds or declares its counter without a violation exactly
if it can count with it. -/
theorem clean_counter_iff {ctx : Context} {p : Progress} (hp : p.Clean) {id : Ident} {stmt : Stmt}
    {frame : List Local} :
    (ctx.counter id stmt (p.inScope .push)).Clean ∧
        (ctx.counter id stmt (p.inScope .push)).scope.env = frame :: p.scope.env ↔
      Counts ctx.setting p.scope.env id.name frame := by
  have henv := p.scope.lookup?_env id.name
  have hpush : p.scope.push.lookup? id.name = p.scope.lookup? id.name := rfl
  unfold counter counter?
  rw [Progress.inScope_scope, hpush]
  cases hb : p.scope.lookup? id.name with
  | some b =>
    have hl : p.scope.env.lookup? id.name = some b.toLocal := by rw [henv, hb]; rfl
    dsimp only
    rw [Progress.clean_demand_iff, Progress.clean_demand_iff, Progress.demand_scope,
      Progress.demand_scope, Progress.clean_inScope_iff, isAssignable_iff]
    constructor
    · rintro ⟨⟨⟨-, hwrite⟩, hint⟩, hframe⟩
      cases hframe
      exact .localName hl hwrite (of_decide_eq_true hint)
    · intro h
      cases h with
      | localName hl' hwrite hint =>
        obtain rfl := Option.some.inj (hl.symm.trans hl')
        exact ⟨⟨⟨hp, hwrite⟩, decide_eq_true hint⟩, rfl⟩
      | attributeName hl' _ _ _ =>
        rw [hl] at hl'
        cases hl'
      | fresh hl' _ =>
        rw [hl] at hl'
        cases hl'
  | none =>
    have hl : p.scope.env.lookup? id.name = none := by rw [henv, hb]; rfl
    dsimp only
    cases hfound : ctx.table.findAttribute? ctx.className id.name with
    | some found =>
      obtain ⟨owner, info⟩ := found
      have ha := (ctx.table.findAttribute?_eq_some_iff _ _ _ _).mp hfound
      simp only [Option.map_some, Progress.clean_demand_iff, Progress.demand_scope,
        Progress.clean_inScope_iff]
      constructor
      · rintro ⟨⟨⟨-, hwrite⟩, hint⟩, hframe⟩
        cases hframe
        exact .attributeName hl ha (by simpa using hwrite) (of_decide_eq_true hint)
      · intro h
        cases h with
        | localName hl' _ _ =>
          rw [hl] at hl'
          cases hl'
        | attributeName _ ha' hwrite hint =>
          obtain ⟨-, rfl⟩ := ha.unique ha'
          exact ⟨⟨⟨hp, by simp [hwrite]⟩, decide_eq_true hint⟩, rfl⟩
        | fresh _ hno => exact absurd ⟨_, _, ha⟩ hno
    | none =>
      have hno := (ctx.table.findAttribute?_eq_none_iff _ _).mp hfound
      have hdefine := @Progress.env_define (p.inScope .push) ⟨id.name, .variable, .int, true⟩
        (some id.span) (List.forall_mem_nil _)
      simp only [Option.map_none, Progress.clean_define_iff, Progress.clean_inScope_iff]
      rw [hdefine]
      constructor
      · rintro ⟨-, hframe⟩
        cases hframe
        exact .fresh hl hno
      · intro h
        cases h with
        | localName hl' _ _ =>
          rw [hl] at hl'
          cases hl'
        | attributeName _ ha _ _ => exact absurd ⟨_, _, ha⟩ hno
        | fresh _ _ => exact ⟨hp, rfl⟩

/-- A frame put inside names no classes. -/
theorem Closed.push {ctx : Context} {scope : Scope} (h : ctx.Closed scope) :
    ctx.Closed scope.push := ⟨h.current, h.table, h.scope.push⟩

/-- The head of a loop names no further classes. -/
theorem Closed.loopHead {ctx : Context} {p : Progress} (h : ctx.Closed p.scope) (id : Ident)
    (first last : Expr) (stmt : Stmt) : ctx.Closed (ctx.loopHead id first last stmt p).scope :=
  ⟨h.current, h.table, loopHead_within h.scope⟩

/-- The counter and the bounds of a loop are checked without a violation exactly if they are
well formed. -/
theorem clean_loopHead_iff {ctx : Context} {p : Progress} (hc : ctx.Closed p.scope)
    (hp : p.Clean) {id : Ident} {first last : Expr} {stmt : Stmt} {frame : List Local} :
    (ctx.loopHead id first last stmt p).Clean ∧
        (ctx.loopHead id first last stmt p).scope.env = frame :: p.scope.env ↔
      Counts ctx.setting p.scope.env id.name frame ∧
        HasType ctx.setting (frame :: p.scope.env) first (.known .int) ∧
        HasType ctx.setting (frame :: p.scope.env) last (.known .int) := by
  have hcounter := @clean_counter_iff ctx p hp id stmt frame
  have hc' := hc.loopHead id first last stmt
  rw [loopHead, bounds_scope] at hc' ⊢
  constructor
  · rintro ⟨hclean, henv⟩
    have hcount := hclean.of_grows (ctx.bounds_grows _ _ _ _)
    have hbounds := (clean_bounds_iff hc' hcount).mp hclean
    rw [henv] at hbounds
    exact ⟨hcounter.mp ⟨hcount, henv⟩, hbounds⟩
  · rintro ⟨hcounts, hbounds⟩
    obtain ⟨hcount, henv⟩ := hcounter.mpr hcounts
    rw [← henv] at hbounds
    exact ⟨(clean_bounds_iff hc' hcount).mpr hbounds, henv⟩

/-! ## Statements -/

/-- A written type passes just if all classes in it are declared. -/
theorem clean_demandType_iff {ctx : Context} {type : WrittenType} :
    (ctx.demandType type).Clean ↔ ctx.table.classes.Knows type := by
  unfold demandType Classes.Knows
  cases type.className? with
  | none => exact ⟨fun _ => nofun, fun _ => rfl⟩
  | some id =>
    simp only [Option.some.injEq, forall_eq', ClassTable.isSome_classes]
    cases ctx.table.contains id.name <;> simp [Clean, report, note, Event.violations,
      Event.violation?]

/-- A known written type names only declared classes. -/
theorem within_of_knows {t : ClassTable} {type : WrittenType} (h : t.classes.Knows type) :
    (Ty.ofWritten type).Within fun c => t.contains c = true := by
  intro c hc
  rw [Ty.className?_ofWritten] at hc
  obtain ⟨id, hid, rfl⟩ := Option.map_eq_some_iff.mp hc
  rw [← ClassTable.isSome_classes]
  exact h id hid

/-- Scopes of the same names are closed together. -/
theorem Closed.of_env {ctx : Context} {scope scope' : Scope} (h : ctx.Closed scope)
    (henv : scope'.env = scope.env) : ctx.Closed scope' :=
  ⟨h.current, h.table, henv ▸ h.scope⟩

/-- A clean statement leaves a scope that names only declared classes. -/
theorem Closed.statement {ctx : Context} {s : Stmt} {p : Progress} (h : ctx.Closed p.scope)
    (hclean : (ctx.statement s p).Clean) : ctx.Closed (ctx.statement s p).scope := by
  refine ⟨h.current, h.table, ?_⟩
  have hp : p.scope.env.Within (ctx.table.Accounts (ctx.statement s p).events) :=
    h.scope.mono fun _ => Or.inl
  exact (statement_within hp (List.Subset.refl _)).mono fun _ =>
    ClassTable.contains_of_accounts hclean

end Context

/-- A check has found no violation and has come to these names and final attributes. -/
def Progress.Arrives (p : Progress) (Γ : Env) (A : List String) : Prop :=
  p.Clean ∧ p.scope.env = Γ ∧ p.assigned = A

mutual

/-- All assignments in a statement go to a name, an attribute or an element. -/
def Stmt.AssignsPlaces : Stmt → Prop
  | .assign place _ _ => place.isPlace = true
  | .ifThen _ thenBranch _ => thenBranch.AssignsPlaces
  | .ifElse _ thenBranch elseBranch _ => thenBranch.AssignsPlaces ∧ elseBranch.AssignsPlaces
  | .loop _ _ _ _ body _ => body.AssignsPlaces
  | .block stmts _ => Stmt.AllAssignPlaces stmts
  | _ => True

/-- All assignments in statements go to a name, an attribute or an element. -/
def Stmt.AllAssignPlaces : List Stmt → Prop
  | [] => True
  | s :: ss => s.AssignsPlaces ∧ Stmt.AllAssignPlaces ss

end

namespace Context

/-- In every closed state without a violation, the check of a statement arrives exactly where the
static semantics does. -/
def Decides (ctx : Context) (s : Stmt) : Prop :=
  ∀ ⦃p : Progress⦄, ctx.Closed p.scope → p.Clean →
    ∀ ⦃inLoop : Bool⦄, p.scope.inLoop = inLoop → ∀ {Γ : Env} {A : List String},
      (ctx.statement s p).Arrives Γ A ↔
        StmtOk ctx.setting inLoop p.scope.env p.assigned s Γ A

/-- In every closed state without a violation, the check of statements arrives exactly where the
static semantics does. -/
def DecidesAll (ctx : Context) (ss : List Stmt) : Prop :=
  ∀ ⦃p : Progress⦄, ctx.Closed p.scope → p.Clean →
    ∀ ⦃inLoop : Bool⦄, p.scope.inLoop = inLoop → ∀ {Γ : Env} {A : List String},
      (ctx.statements ss p).Arrives Γ A ↔
        StmtsOk ctx.setting inLoop p.scope.env p.assigned ss Γ A

section Forms

variable {ctx : Context}

/-- Declarations of local names are decided. -/
theorem decides_declare (isFinal : Bool) (type : WrittenType) (ds : List Declarator)
    (span : Span) : ctx.Decides (.declare isFinal type ds span) := by
  intro p hc hp inLoop hloop Γ A
  rw [statement_declare (hp.halts ctx)]
  constructor
  · rintro ⟨hclean, hΓ, rfl⟩
    have hdemand := hclean.of_grows (ctx.declareLocals_grows _ _ _ _ _)
    have hknows := clean_demandType_iff.mp (Progress.clean_absorb_iff.mp hdemand).2
    rw [declareLocals_assigned]
    exact .declare hknows ((clean_declareLocals_iff (p := p.absorb (ctx.demandType type))
      (within_of_knows hknows) ds hc hdemand).mp ⟨hclean, hΓ⟩)
  · intro h
    cases h with | declare hknows hdeclares =>
    have hdemand : (p.absorb (ctx.demandType type)).Clean :=
      Progress.clean_absorb_iff.mpr ⟨hp, clean_demandType_iff.mpr hknows⟩
    obtain ⟨hclean, hΓ⟩ := (clean_declareLocals_iff (p := p.absorb (ctx.demandType type))
      (within_of_knows hknows) ds hc hdemand).mpr hdeclares
    exact ⟨hclean, hΓ, ctx.declareLocals_assigned _ _ _ _ _⟩

/-- Assignments to places are decided. -/
theorem decides_assign {place : Expr} (hplace : place.isPlace = true) (value : Expr)
    (span : Span) : ctx.Decides (.assign place value span) := by
  intro p hc hp inLoop hloop Γ A
  rw [statement_assign (hp.halts ctx)]
  have henv := Scope.env_eq_of_shape
    (ctx.assignment_fills place value (.assign place value span) p).shape
  constructor
  · rintro ⟨hclean, rfl, hA⟩
    obtain ⟨τ, T, htype, hwrites, hfits⟩ := (clean_assignment_iff hc hp hplace).mp ⟨hclean, hA⟩
    rw [henv]
    exact .assign htype hwrites hfits
  · intro h
    cases h with | assign htype hwrites hfits =>
    obtain ⟨hclean, hA⟩ := (clean_assignment_iff hc hp hplace).mpr ⟨_, _, htype, hwrites, hfits⟩
    exact ⟨hclean, henv, hA⟩

private theorem decides_breakLoop (span : Span) : ctx.Decides (.breakLoop span) := by
  intro p hc hp inLoop hloop Γ A
  rw [statement_breakLoop (hp.halts ctx), Progress.Arrives, Progress.clean_demand_iff,
    Progress.demand_scope, Progress.demand_assigned, hloop]
  constructor
  · rintro ⟨⟨-, rfl⟩, rfl, rfl⟩
    exact .breakLoop
  · intro h
    cases h
    exact ⟨⟨hp, rfl⟩, rfl, rfl⟩

private theorem decides_continueLoop (span : Span) : ctx.Decides (.continueLoop span) := by
  intro p hc hp inLoop hloop Γ A
  rw [statement_continueLoop (hp.halts ctx), Progress.Arrives, Progress.clean_demand_iff,
    Progress.demand_scope, Progress.demand_assigned, hloop]
  constructor
  · rintro ⟨⟨-, rfl⟩, rfl, rfl⟩
    exact .continueLoop
  · intro h
    cases h
    exact ⟨⟨hp, rfl⟩, rfl, rfl⟩

/-- Returns are decided. -/
theorem decides_returnValue (value : Option Expr) (span : Span) :
    ctx.Decides (.returnValue value span) := by
  intro p hc hp inLoop hloop Γ A
  rw [statement_returnValue (hp.halts ctx), Progress.Arrives, clean_returned_iff hc hp,
    returned_scope, returned_assigned]
  cases value with
  | none =>
    constructor
    · rintro ⟨hnone, rfl, rfl⟩
      exact .returnNothing hnone
    · intro h
      cases h with | returnNothing hnone =>
      exact ⟨hnone, rfl, rfl⟩
  | some e =>
    constructor
    · rintro ⟨⟨T, τ, hT, htype, hfits⟩, rfl, rfl⟩
      exact .returnValue hT htype hfits
    · intro h
      cases h with | returnValue hT htype hfits =>
      exact ⟨⟨_, _, hT, htype, hfits⟩, rfl, rfl⟩

/-- Calls are decided. -/
theorem decides_call (invocation : Expr) (span : Span) :
    ctx.Decides (.call invocation span) := by
  intro p hc hp inLoop hloop Γ A
  rw [statement_call (hp.halts ctx), Progress.Arrives, Progress.clean_absorb_iff]
  constructor
  · rintro ⟨⟨-, hclean⟩, rfl, rfl⟩
    exact .call (hasType_of_yields hc invocation hclean.yields)
  · intro h
    cases h with | call htype =>
    exact ⟨⟨hp, (yields_of_hasType invocation htype).1⟩, rfl, rfl⟩

/-- A statement in a frame of its own is checked without a violation exactly if it is well formed
there, and the names are those before it. -/
theorem Decides.nested {s : Stmt} (h : ctx.Decides s) {p : Progress} (hc : ctx.Closed p.scope)
    (hp : p.Clean) {inLoop : Bool} (hloop : p.scope.inLoop = inLoop) {Γ : Env} {A : List String} :
    (ctx.nested s p).Arrives Γ A ↔
      Γ = p.scope.env ∧ ∃ Γ', StmtOk ctx.setting inLoop ([] :: p.scope.env) p.assigned s Γ' A := by
  have henv := Scope.env_eq_of_shape (ctx.nested_fills s p).shape
  have hinner := @h (p.inScope .push) hc.push hp inLoop hloop
  constructor
  · rintro ⟨hclean, rfl, rfl⟩
    exact ⟨henv, _, hinner.mp ⟨hclean, rfl, rfl⟩⟩
  · rintro ⟨rfl, Γ', h⟩
    obtain ⟨hclean, -, hA⟩ := hinner.mpr h
    exact ⟨hclean, henv, hA⟩

/-- A branch is decided if its statement is. -/
theorem Decides.ifThen (cond : Expr) {thenBranch : Stmt} (hthen : ctx.Decides thenBranch)
    (span : Span) : ctx.Decides (.ifThen cond thenBranch span) := by
  intro p hc hp inLoop hloop Γ A
  rw [statement_ifThen (hp.halts ctx)]
  have hcond := @clean_condition_iff ctx p hc hp cond (.ifThen cond thenBranch span)
  have hscope := ctx.condition_scope cond (.ifThen cond thenBranch span) p
  have hassigned := ctx.condition_assigned cond (.ifThen cond thenBranch span) p
  generalize ctx.condition cond (.ifThen cond thenBranch span) p = q at hcond hscope hassigned
  rw [← hscope] at hc hloop hcond ⊢
  rw [← hassigned]
  constructor
  · intro h
    have hq := h.1.of_grows (ctx.nested_grows thenBranch q)
    obtain ⟨rfl, Γ', hok⟩ := (hthen.nested hc hq hloop).mp h
    exact .ifThen (hcond.mp hq) hok
  · intro h
    cases h with | ifThen hbool hok =>
    exact (hthen.nested hc (hcond.mpr hbool) hloop).mpr ⟨rfl, _, hok⟩

/-- So is one with an `else`, if both are. -/
theorem Decides.ifElse (cond : Expr) {thenBranch elseBranch : Stmt}
    (hthen : ctx.Decides thenBranch) (helse : ctx.Decides elseBranch) (span : Span) :
    ctx.Decides (.ifElse cond thenBranch elseBranch span) := by
  intro p hc hp inLoop hloop Γ A
  rw [statement_ifElse (hp.halts ctx)]
  have hcond := @clean_condition_iff ctx p hc hp cond (.ifElse cond thenBranch elseBranch span)
  have hscope := ctx.condition_scope cond (.ifElse cond thenBranch elseBranch span) p
  have hassigned := ctx.condition_assigned cond (.ifElse cond thenBranch elseBranch span) p
  generalize ctx.condition cond (.ifElse cond thenBranch elseBranch span) p = q
    at hcond hscope hassigned
  rw [← hscope] at hc hloop hcond ⊢
  rw [← hassigned]
  have hshape := (ctx.nested_fills thenBranch q).shape
  have henv := Scope.env_eq_of_shape hshape
  have hc' : ctx.Closed (ctx.nested thenBranch q).scope := hc.of_env henv
  have hloop' := (Scope.inLoop_eq_of_shape hshape).trans hloop
  constructor
  · intro h
    have hclean := h.1.of_grows (ctx.nested_grows elseBranch _)
    have hq := hclean.of_grows (ctx.nested_grows thenBranch q)
    obtain ⟨-, Γ₁, hthenOk⟩ := (hthen.nested hc hq hloop).mp ⟨hclean, rfl, rfl⟩
    obtain ⟨rfl, Γ₂, helseOk⟩ := (helse.nested hc' hclean hloop').mp h
    rw [henv] at helseOk ⊢
    exact .ifElse (hcond.mp hq) hthenOk helseOk
  · intro h
    cases h with | ifElse hbool hthenOk helseOk =>
    obtain ⟨hclean, -, hA⟩ := (hthen.nested hc (hcond.mpr hbool) hloop).mpr ⟨rfl, _, hthenOk⟩
    -- The other branch starts with the attributes that the first one has written.
    rw [← hA, ← henv] at helseOk
    exact (helse.nested hc' hclean hloop').mpr ⟨henv.symm, _, helseOk⟩

/-- A loop is decided if its body is. -/
theorem Decides.loop (id : Ident) (first last : Expr) (direction : Direction) {body : Stmt}
    (hbody : ctx.Decides body) (span : Span) :
    ctx.Decides (.loop id first last direction body span) := by
  intro p hc hp inLoop hloop Γ A
  have henv := Scope.env_eq_of_shape
    (ctx.statement_fills (.loop id first last direction body span) rfl p).shape
  rw [statement_loop (hp.halts ctx)] at henv ⊢
  have hhead := @clean_loopHead_iff ctx p hc hp id first last
    (.loop id first last direction body span)
  have hcq := hc.loopHead id first last (.loop id first last direction body span)
  have hqenv := ctx.env_loopHead id first last (.loop id first last direction body span) p
  have hassigned := ctx.loopHead_assigned id first last
    (.loop id first last direction body span) p
  -- From here on only these facts about the head matter, not what its check does.
  generalize ctx.loopHead id first last (.loop id first last direction body span) p = q
    at henv hhead hcq hqenv hassigned ⊢
  have hround := @Decides.nested ctx body hbody (q.inScope .enterLoop) (hcq.of_env rfl)
  constructor
  · rintro ⟨hclean, rfl, rfl⟩
    have hq : q.Clean := hclean.of_grows (ctx.nested_grows body (q.inScope .enterLoop))
    obtain ⟨hcounts, hfirst, hlast⟩ := hhead.mp ⟨hq, hqenv⟩
    obtain ⟨-, Γ', hok⟩ := (hround hq (Scope.inLoop_enterLoop _)).mp ⟨hclean, rfl, rfl⟩
    rw [Progress.inScope_scope, Scope.env_enterLoop, hqenv, Progress.inScope_assigned,
      hassigned] at hok
    rw [henv]
    exact .loop hcounts hfirst hlast hok
  · intro h
    cases h with | loop hcounts hfirst hlast hok =>
    obtain ⟨hq, hqenv⟩ := hhead.mpr ⟨hcounts, hfirst, hlast⟩
    rw [← hqenv, ← hassigned] at hok
    obtain ⟨hclean, -, hA⟩ := (hround hq (Scope.inLoop_enterLoop _)).mpr ⟨rfl, _, hok⟩
    exact ⟨hclean, henv, hA⟩

/-- A block is decided if its statements are. -/
theorem DecidesAll.block {stmts : List Stmt} (hstmts : ctx.DecidesAll stmts) (span : Span) :
    ctx.Decides (.block stmts span) := by
  intro p hc hp inLoop hloop Γ A
  rw [statement_block (hp.halts ctx)]
  have henv := Scope.env_eq_of_shape (ctx.nestedAll_fills stmts p).shape
  have hinner := @hstmts (p.inScope .push) hc.push hp inLoop hloop
  constructor
  · rintro ⟨hclean, rfl, rfl⟩
    rw [henv]
    exact .block (hinner.mp ⟨hclean, rfl, rfl⟩)
  · intro h
    cases h with | block h =>
    obtain ⟨hclean, -, hA⟩ := hinner.mpr h
    exact ⟨hclean, henv, hA⟩

private theorem decidesAll_nil : ctx.DecidesAll [] := by
  intro p hc hp inLoop hloop Γ A
  rw [statements_nil]
  constructor
  · rintro ⟨-, rfl, rfl⟩
    exact .nil
  · intro h
    cases h
    exact ⟨hp, rfl, rfl⟩

/-- Statements in order are decided if each is. -/
theorem Decides.cons {s : Stmt} {ss : List Stmt} (hs : ctx.Decides s) (hss : ctx.DecidesAll ss) :
    ctx.DecidesAll (s :: ss) := by
  intro p hc hp inLoop hloop Γ A
  rw [statements_cons]
  have hloop' := (ctx.statement_adds s p).extends.inLoop.trans hloop
  constructor
  · intro h
    have hclean := h.1.of_grows (ctx.statements_grows ss _)
    have hfirst := (hs hc hp hloop).mp ⟨hclean, rfl, rfl⟩
    exact .cons hfirst ((hss (hc.statement hclean) hclean hloop').mp h)
  · intro h
    cases h with | cons hfirst hrest =>
    obtain ⟨hclean, hΓ, hA⟩ := (hs hc hp hloop).mpr hfirst
    rw [← hΓ, ← hA] at hrest
    exact (hss (hc.statement hclean) hclean hloop').mpr hrest

end Forms

mutual

/-- A statement is checked without a violation exactly if it is well formed, and the check
arrives where the static semantics does. -/
theorem decides (ctx : Context) (s : Stmt) (hs : s.AssignsPlaces) : ctx.Decides s := by
  cases s with
  | declare isFinal type ds span => exact decides_declare isFinal type ds span
  | assign place value span => exact decides_assign hs value span
  | ifThen cond thenBranch span => exact .ifThen cond (ctx.decides thenBranch hs) span
  | ifElse cond thenBranch elseBranch span =>
    exact .ifElse cond (ctx.decides thenBranch hs.1) (ctx.decides elseBranch hs.2) span
  | loop id first last direction body span =>
    exact .loop id first last direction (ctx.decides body hs) span
  | breakLoop span => exact decides_breakLoop span
  | continueLoop span => exact decides_continueLoop span
  | returnValue value span => exact decides_returnValue value span
  | call invocation span => exact decides_call invocation span
  | block stmts span => exact (ctx.decidesAll stmts hs).block span

/-- Statements are checked without a violation exactly if they are well formed one after
another. -/
theorem decidesAll (ctx : Context) (ss : List Stmt) (hs : Stmt.AllAssignPlaces ss) :
    ctx.DecidesAll ss := by
  cases ss with
  | nil => exact decidesAll_nil
  | cons s ss => exact (ctx.decides s hs.1).cons (ctx.decidesAll ss hs.2)

end

end Context

end ClassCheck
