import ClassCheck.Proofs.Breaches
import ClassCheck.Proofs.Independence
import ClassCheck.Proofs.Occurrences

/-!
# Writes to constants

A statement writes to a name if it is an assignment to it or a loop that counts with it, and to an
attribute behind a dot if it is an assignment to that. Which of these writes cannot be made is said
of the statement, the names where it stands and the statements of the member before it. A
program whose names are all declared, and none of them twice, is reported for exactly these
statements, in order and once each.
-/

namespace ClassCheck

/-! ## Writes that cannot be made -/

/-- What can be written to. -/
inductive Target where
  /-- A local name, or an attribute of the class. -/
  | name (name : String)
  /-- An attribute behind a dot. -/
  | field (object : Expr) (name : String)

/-- What a statement writes to by itself. Elements do not count: they can be written even if the
array is a constant. -/
def Stmt.target? : Stmt → Option Target
  | .assign (.ident name _) _ _ => some (.name name)
  | .assign (.field object name _) _ _ => some (.field object name)
  | .loop counter _ _ _ _ _ => some (.name counter.name)
  | _ => none

namespace Context

/-- A name stands for a local name that cannot be written or, if there is none, for a final
attribute of the class. -/
def IsConstant (ctx : Context) (Γ : Env) (name : String) : Prop :=
  (∃ l ∈ Γ.lookup? name, ¬ l.IsWritable) ∨ Γ.lookup? name = none ∧ ∃ owner info,
    ctx.table.classes.HasAttribute ctx.className name owner info ∧ info.isFinal = true

/-- The attribute that an access comes to: a static one through a class, and any other through an
object. -/
def Reaches (ctx : Context) (Γ : Env) (object : Expr) (name owner : String)
    (info : AttributeInfo) : Prop :=
  ∃ c, (ctx.typeAmong Γ object).Denotes c info.isStatic ∧
    ctx.table.classes.HasAttribute c name owner info

/-- It is up to the constructor to give an attribute its value: the attribute has no initial value
and belongs to the running object and its class. -/
def MayFill (ctx : Context) (object : Expr) (owner : String) (info : AttributeInfo) : Prop :=
  ctx.inCtor = true ∧ info.hasInit = false ∧ owner = ctx.className ∧
    ∃ span, object.bare = .self span

/-- Writing to a target gives the final attribute of a name the value that it has to get. -/
def Fills (ctx : Context) (Γ : Env) (name : String) : Target → Prop
  | .name _ => False
  | .field object written => written = name ∧ ∃ owner info,
      ctx.Reaches Γ object name owner info ∧ info.isFinal = true ∧ ctx.MayFill object owner info

/-- A statement gives the final attribute of a name its value, or would if it were the first. -/
def GivesValue (ctx : Context) (name : String) (o : Occurrence) : Prop :=
  ∃ target ∈ o.stmt.target?, ctx.Fills o.names name target

/-- A target cannot be written after other statements of the member. -/
def Refuses (ctx : Context) (earlier : List Occurrence) (Γ : Env) : Target → Prop
  | .name name => ctx.IsConstant Γ name
  | .field object name => ∃ owner info, ctx.Reaches Γ object name owner info ∧
      info.isFinal = true ∧
      ¬ (ctx.MayFill object owner info ∧ ∀ o ∈ earlier, ¬ ctx.GivesValue name o)

/-- A statement writes to what cannot be written. -/
def Offends (ctx : Context) (earlier : List Occurrence) (o : Occurrence) : Prop :=
  ∃ target ∈ o.stmt.target?, ctx.Refuses earlier o.names target

/-- The attribute that the check finds behind a dot. -/
theorem attribute?_value_eq_some_iff {ctx : Context} {access : Expr} {name : String} {τ : ExprTy}
    {owner : String} {info : AttributeInfo} :
    (ctx.attribute? access name τ).value = some (owner, info) ↔
      ∃ c, τ.Denotes c info.isStatic ∧ ctx.table.classes.HasAttribute c name owner info := by
  refine ⟨hasAttribute_of_attribute?, ?_⟩
  rintro ⟨c, hd, ha⟩
  exact (attribute?_of_denotes hd ha).2

/-- An access comes to an attribute just if the check finds it. -/
theorem reaches_iff (ctx : Context) (Γ : Env) (object access : Expr) (name owner : String)
    (info : AttributeInfo) :
    ctx.Reaches Γ object name owner info ↔
      (ctx.attribute? access name (ctx.typeAmong Γ object)).value = some (owner, info) :=
  attribute?_value_eq_some_iff.symm

/-- An access comes to at most one attribute. -/
theorem Reaches.unique {ctx : Context} {Γ : Env} {object : Expr} {name owner owner' : String}
    {info info' : AttributeInfo} (h : ctx.Reaches Γ object name owner info)
    (h' : ctx.Reaches Γ object name owner' info') : owner = owner' ∧ info = info' := by
  rw [ctx.reaches_iff Γ object object] at h h'
  cases h.symm.trans h'
  exact ⟨rfl, rfl⟩

/-! ## Deciding which writes cannot be made -/

instance (l : Local) : Decidable l.IsWritable :=
  decidable_of_iff (l.toBinding.isAssignable = true) (isAssignable_iff l.toBinding)

section

variable (ctx : Context) (Γ : Env)

instance (name : String) : Decidable (ctx.IsConstant Γ name) :=
  decidable_of_iff ((∃ l ∈ Γ.lookup? name, ¬ l.IsWritable) ∨ Γ.lookup? name = none ∧
      ∃ found ∈ ctx.table.findAttribute? ctx.className name, found.2.isFinal = true) <| by
    simp [IsConstant, Classes.HasAttribute, ← ClassTable.findAttribute?_eq_some_iff]

instance (object : Expr) (owner : String) (info : AttributeInfo) :
    Decidable (ctx.MayFill object owner info) :=
  decidable_of_iff (ctx.inCtor = true ∧ info.hasInit = false ∧ owner = ctx.className ∧
      object.isSelf = true) <| by rw [MayFill, isSelf_iff]

instance (object : Expr) (name : String) (P : String → AttributeInfo → Prop)
    [∀ owner info, Decidable (P owner info)] :
    Decidable (∃ owner info, ctx.Reaches Γ object name owner info ∧ P owner info) :=
  decidable_of_iff (∃ found ∈ (ctx.attribute? object name (ctx.typeAmong Γ object)).value,
      P found.1 found.2) <| by
    simp [ctx.reaches_iff Γ object object]

instance (name : String) : DecidablePred (ctx.Fills Γ name)
  | .name _ => inferInstanceAs (Decidable False)
  | .field object written => inferInstanceAs (Decidable (written = name ∧ ∃ owner info,
      ctx.Reaches Γ object name owner info ∧ info.isFinal = true ∧ ctx.MayFill object owner info))

instance (name : String) : DecidablePred (ctx.GivesValue name) := fun o =>
  inferInstanceAs (Decidable (∃ target ∈ o.stmt.target?, ctx.Fills o.names name target))

instance (earlier : List Occurrence) : DecidablePred (ctx.Refuses earlier Γ)
  | .name name => inferInstanceAs (Decidable (ctx.IsConstant Γ name))
  | .field object name => inferInstanceAs (Decidable (∃ owner info,
      ctx.Reaches Γ object name owner info ∧ info.isFinal = true ∧
        ¬ (ctx.MayFill object owner info ∧ ∀ o ∈ earlier, ¬ ctx.GivesValue name o)))

instance (earlier : List Occurrence) : DecidablePred (ctx.Offends earlier) := fun o =>
  inferInstanceAs (Decidable (∃ target ∈ o.stmt.target?, ctx.Refuses earlier o.names target))

end

/-- The statements that write to what cannot be written, in order. -/
def offenders (ctx : Context) (earlier : List Occurrence) : List Occurrence → List Stmt
  | [] => []
  | o :: os =>
    (if ctx.Offends earlier o then [o.stmt] else []) ++ ctx.offenders (earlier ++ [o]) os

/-- A further statement is added to the offenders if it offends. -/
theorem offenders_snoc (ctx : Context) (earlier os : List Occurrence) (o : Occurrence) :
    ctx.offenders earlier (os ++ [o]) =
      ctx.offenders earlier os ++ if ctx.Offends (earlier ++ os) o then [o.stmt] else [] := by
  induction os generalizing earlier with
  | nil => simp [offenders]
  | cons first os ih => simp [offenders, ih]

/-- Only statements that write to something offend. -/
theorem exists_target_of_mem_offenders {ctx : Context} {earlier os : List Occurrence} {s : Stmt}
    (h : s ∈ ctx.offenders earlier os) : ∃ target, s.target? = some target := by
  induction os generalizing earlier with
  | nil => cases h
  | cons o os ih =>
    rcases List.mem_append.mp h with ho | hos
    · split at ho
      · rename_i hoffends
        obtain ⟨target, htarget, -⟩ := hoffends
        rw [List.mem_singleton.mp ho]
        exact ⟨target, htarget⟩
      · cases ho
    · exact ih hos

end Context

/-- The violations among events that are writes to constants, in order. -/
def Event.constantWrites (events : List Event) : List Violation :=
  (violations events).filter (·.rule? = some .cannotAssignToConstant)

/-! ## What a check has recorded -/

namespace Progress

/-- The final attributes with a value, and the writes to constants that came up, are those of the
statements so far. -/
structure Records (p : Progress) (ctx : Context) (os : List Occurrence) : Prop where
  /-- The final attributes that the constructor has given a value. -/
  assigned : ∀ name, name ∈ p.assigned ↔ ∃ o ∈ os, ctx.GivesValue name o
  /-- The writes to constants. -/
  writes : Event.constantWrites p.events =
    (ctx.offenders [] os).map (·.breaks .cannotAssignToConstant)

namespace Records

variable {p q : Progress} {ctx : Context} {os : List Occurrence} {o : Occurrence}

/-- Names in scope and violations of other rules do not matter. -/
theorem congr (h : p.Records ctx os) (hassigned : q.assigned = p.assigned)
    (hwrites : Event.constantWrites q.events = Event.constantWrites p.events) :
    q.Records ctx os :=
  ⟨hassigned ▸ h.assigned, hwrites ▸ h.writes⟩

/-- Changes of the scope leave the record as it is. -/
theorem inScope (h : p.Records ctx os) (f : Scope → Scope) : (p.inScope f).Records ctx os :=
  h.congr rfl rfl

/-- So does a check that spares the rule. -/
theorem absorb {α : Type} (h : p.Records ctx os) {c : Checked α}
    (hc : c.Spares .cannotAssignToConstant) : (p.absorb c).Records ctx os :=
  h.congr rfl (p.breaches_absorb hc)

/-- So does a report of another rule. -/
theorem report (h : p.Records ctx os) {v : Violation}
    (hv : v.rule? ≠ some .cannotAssignToConstant) : (p.report v).Records ctx os :=
  h.congr rfl (p.breaches_report hv)

/-- So does a demand for another rule. -/
theorem demand (h : p.Records ctx os) {holds : Bool} {v : Violation}
    (hv : v.rule? ≠ some .cannotAssignToConstant) : (p.demand holds v).Records ctx os :=
  h.congr (p.demand_assigned holds v) (p.breaches_demand holds hv)

/-- So does a declaration. -/
theorem define (h : p.Records ctx os) (b : Binding) (span : Option Span) :
    (p.define b span).Records ctx os :=
  h.congr (p.define_assigned b span) (p.breaches_define b span)

/-- One more statement. -/
theorem step (h : p.Records ctx os)
    (hassigned : ∀ name, name ∈ q.assigned ↔ name ∈ p.assigned ∨ ctx.GivesValue name o)
    (hwrites : Event.constantWrites q.events = Event.constantWrites p.events ++
      if ctx.Offends os o then [o.stmt.breaks .cannotAssignToConstant] else []) :
    q.Records ctx (os ++ [o]) := by
  constructor
  · intro name
    rw [hassigned, h.assigned]
    simp [or_and_right, exists_or]
  · rw [hwrites, h.writes, Context.offenders_snoc, List.map_append, List.nil_append]
    split <;> rfl

/-- A statement that neither gives a final attribute its value nor offends leaves no trace. -/
theorem spared (h : p.Records ctx os) (hgives : ∀ name, ¬ ctx.GivesValue name o)
    (hoffends : ¬ ctx.Offends os o) : p.Records ctx (os ++ [o]) := by
  refine h.step (fun name => ?_) ?_
  · simp [hgives name]
  · simp [hoffends]

/-- A statement that offends is reported. -/
theorem refused (h : p.Records ctx os)
    (hgives : ∀ name, ctx.GivesValue name o → name ∈ p.assigned) (hoffends : ctx.Offends os o) :
    (p.report (o.stmt.breaks .cannotAssignToConstant)).Records ctx (os ++ [o]) := by
  refine h.step (fun name => ?_) ?_
  · exact (or_iff_left_of_imp (hgives name)).symm
  · rw [if_pos hoffends]
    exact Event.breaches_append _ _ _

/-- A statement that gives a final attribute its value is remembered. -/
theorem filled (h : p.Records ctx os) {name : String}
    (hgives : ∀ other, ctx.GivesValue other o ↔ other = name) (hoffends : ¬ ctx.Offends os o) :
    { p with assigned := name :: p.assigned }.Records ctx (os ++ [o]) := by
  refine h.step (fun other => ?_) ?_
  · rw [hgives, List.mem_cons, or_comm]
  · simp [hoffends]

private theorem ofNone (h : p.Records ctx os) (ho : o.stmt.target? = none) :
    p.Records ctx (os ++ [o]) :=
  h.spared (by simp [Context.GivesValue, ho]) (by simp [Context.Offends, ho])

/-- A write to a name that is no constant is recorded without a report. -/
theorem spared_name (h : p.Records ctx os) {name : String}
    (ho : o.stmt.target? = some (.name name)) (hname : ¬ ctx.IsConstant o.names name) :
    p.Records ctx (os ++ [o]) := by
  refine h.spared ?_ ?_
  · simp [Context.GivesValue, ho, Context.Fills]
  · simp [Context.Offends, ho, Context.Refuses, hname]

/-- A write to a constant is recorded with its report. -/
theorem refused_name (h : p.Records ctx os) {name : String}
    (ho : o.stmt.target? = some (.name name)) (hname : ctx.IsConstant o.names name) :
    (p.report (o.stmt.breaks .cannotAssignToConstant)).Records ctx (os ++ [o]) := by
  refine h.refused ?_ ?_
  · simp [Context.GivesValue, ho, Context.Fills]
  · simp [Context.Offends, ho, Context.Refuses, hname]

end Records

end Progress

namespace Context

section

variable {ctx : Context} {p : Progress} {os : List Occurrence} {o : Occurrence}

/-! ### Writes to names -/

/-- A name is a constant just if it is found where a counter is looked for and cannot be written. -/
theorem isConstant_iff_counter? (ctx : Context) (s : Scope) (name : String) :
    ctx.IsConstant s.env name ↔ ∃ type, ctx.counter? s name = some (false, type) := by
  unfold IsConstant counter?
  rw [Scope.lookup?_env]
  cases s.lookup? name with
  | some b => simp [← isAssignable_iff]
  | none => simp [Classes.HasAttribute, ← ClassTable.findAttribute?_eq_some_iff]

/-- A write to a name is reported exactly if the name cannot be written. -/
theorem writeName_records (h : p.Records ctx os) {name : String}
    (ho : o.stmt.target? = some (.name name)) (hnames : o.names = p.scope.env) (span : Span) :
    (ctx.writeName o.stmt name span p).2.Records ctx (os ++ [o]) := by
  have hconstant := ctx.isConstant_iff_counter? p.scope name
  rw [← hnames] at hconstant
  have hspared := h.spared_name ho
  have hrefused := h.refused_name ho
  unfold counter? at hconstant
  unfold writeName
  cases hb : p.scope.lookup? name with
  | some b =>
    rw [hb] at hconstant
    dsimp only at hconstant ⊢
    cases hw : b.isAssignable with
    | true => exact (hspared (by simp [hconstant, hw])).inScope (·.markInitialized name)
    | false => exact hrefused (by simp [hconstant, hw])
  | none =>
    rw [hb] at hconstant
    dsimp only at hconstant ⊢
    cases hfound : ctx.table.findAttribute? ctx.className name with
    | some found =>
      rw [hfound] at hconstant
      dsimp only
      cases hfinal : found.2.isFinal with
      | true => exact hrefused (by simp [hconstant, hfinal])
      | false => exact hspared (by simp [hconstant, hfinal])
    | none =>
      have hother := hspared (by simp [hconstant, hfound])
      dsimp only
      split <;> exact hother.report (by simp)

/-- A loop is reported exactly if its counter cannot be written. -/
theorem counter_records (h : p.Records ctx os) {id : Ident}
    (ho : o.stmt.target? = some (.name id.name)) (hnames : o.names = p.scope.env) :
    (ctx.counter id o.stmt (p.inScope .push)).Records ctx (os ++ [o]) := by
  have hconstant := ctx.isConstant_iff_counter? p.scope id.name
  rw [← hnames] at hconstant
  -- A frame without names hides none.
  have hpush : ctx.counter? (p.inScope .push).scope id.name = ctx.counter? p.scope id.name := rfl
  have hspared := (h.inScope .push).spared_name ho
  have hrefused := (h.inScope .push).refused_name ho
  unfold counter
  rw [hpush]
  cases hc : ctx.counter? p.scope id.name with
  | some found =>
    obtain ⟨writable, type⟩ := found
    refine Progress.Records.demand ?_ (by simp)
    cases writable with
    | true => exact hspared (by simp [hconstant, hc])
    | false => exact hrefused (by simp [hconstant, hc])
  | none => exact (hspared (by simp [hconstant, hc])).define _ _

/-! ### Writes to attributes -/

/-- The check of an access finds the attribute that it comes to. -/
theorem access_eq_some_iff {s : Scope} {object access : Expr} {name owner : String}
    {info : AttributeInfo} :
    (ctx.valueType s object >>= ctx.attribute? access name).value = some (owner, info) ↔
      ctx.Reaches s.env object name owner info := by
  have hdenotes : ∀ {τ : ExprTy} {c viaClass},
      (if τ = .void then ExprTy.unknown else τ).Denotes c viaClass ↔ τ.Denotes c viaClass := by
    intro τ c viaClass
    split
    · rename_i hvoid
      subst hvoid
      constructor <;> rintro ⟨⟩
    · exact Iff.rfl
  rw [Checked.bind_value, attribute?_value_eq_some_iff, valueType, Checked.demandValue_value,
    Reaches, typeAmong_env]
  exact exists_congr fun c => and_congr_left fun _ => hdenotes

section

variable {object : Expr} {name : String} (ho : o.stmt.target? = some (.field object name))

include ho

private theorem not_givesValue_of_unreached
    (h : ∀ owner info, ¬ ctx.Reaches o.names object name owner info)
    (other : String) : ¬ ctx.GivesValue other o := by
  rintro ⟨target, htarget, hfills⟩
  obtain rfl := Option.some.inj (ho.symm.trans htarget)
  obtain ⟨rfl, owner, info, hreaches, -⟩ := hfills
  exact h owner info hreaches

/-- A write to an attribute that is not reached does not offend. -/
theorem not_offends_of_unreached
    (h : ∀ owner info, ¬ ctx.Reaches o.names object name owner info) : ¬ ctx.Offends os o := by
  simp [Offends, ho, Refuses, h]

variable {owner : String} {info : AttributeInfo}
  (hreaches : ctx.Reaches o.names object name owner info)

include hreaches

/-- A write to an attribute gives it a value just if it is final and up to the constructor. -/
theorem givesValue_field_iff (other : String) :
    ctx.GivesValue other o ↔
      other = name ∧ info.isFinal = true ∧ ctx.MayFill object owner info := by
  constructor
  · rintro ⟨target, htarget, hfills⟩
    obtain rfl := Option.some.inj (ho.symm.trans htarget)
    obtain ⟨rfl, owner', info', hreaches', hrest⟩ := hfills
    obtain ⟨rfl, rfl⟩ := hreaches.unique hreaches'
    exact ⟨rfl, hrest⟩
  · rintro ⟨rfl, hrest⟩
    exact ⟨_, ho, rfl, owner, info, hreaches, hrest⟩

/-- A write to an attribute offends just if it is final and does not give it its first value. -/
theorem offends_field_iff :
    ctx.Offends os o ↔ info.isFinal = true ∧
      ¬ (ctx.MayFill object owner info ∧ ∀ o ∈ os, ¬ ctx.GivesValue name o) := by
  constructor
  · rintro ⟨target, htarget, hrefuses⟩
    obtain rfl := Option.some.inj (ho.symm.trans htarget)
    obtain ⟨owner', info', hreaches', hrest⟩ := hrefuses
    obtain ⟨rfl, rfl⟩ := hreaches.unique hreaches'
    exact hrest
  · intro hrest
    exact ⟨_, ho, owner, info, hreaches, hrest⟩

/-- A write to an attribute behind a dot is reported exactly if the attribute is final and the
constructor is not giving it its value for the first time. -/
theorem writeAttribute_records (h : p.Records ctx os) :
    (ctx.writeAttribute o.stmt object name owner info p).Records ctx (os ++ [o]) := by
  have hgives := givesValue_field_iff ho hreaches
  have hoffends : ctx.Offends os o ↔ _ := offends_field_iff ho hreaches
  have hfirst : ctx.mayInitialize p object name owner info = true ↔
      ctx.MayFill object owner info ∧ ∀ o ∈ os, ¬ ctx.GivesValue name o := by
    simp [mayInitialize_iff, MayFill, h.assigned, and_assoc]
  unfold writeAttribute
  cases hfinal : info.isFinal with
  | false =>
    rw [if_neg Bool.false_ne_true]
    exact h.spared (by simp [hgives, hfinal]) (by simp [hoffends, hfinal])
  | true =>
    rw [if_pos rfl]
    split
    · rename_i hmay
      have hfill := hfirst.mp hmay
      exact h.filled (by simp [hgives, hfinal, hfill.1]) (by simp [hoffends, ← hfirst, hmay])
    · rename_i hmay
      refine h.refused (fun other hother => ?_) (by simp [hoffends, hfinal, ← hfirst, hmay])
      -- The constructor could give the value, but it has done so before.
      obtain ⟨rfl, -, hfill⟩ := (hgives other).mp hother
      rw [hfirst] at hmay
      rw [h.assigned]
      simpa [hfill] using hmay

end

/-- Writing to an attribute records the statement. -/
theorem fieldTarget_records (h : p.Records ctx os) {object : Expr} {name : String} {span : Span}
    (ho : o.stmt.target? = some (.field object name)) (hnames : o.names = p.scope.env) :
    (ctx.target o.stmt (.field object name span) p).2.Records ctx (os ++ [o]) := by
  have haccess := @access_eq_some_iff ctx p.scope object (.field object name span) name
  have hsilent : (ctx.valueType p.scope object >>=
      ctx.attribute? (.field object name span) name).Spares .cannotAssignToConstant :=
    Checked.reports_bind_iff.mpr ⟨ctx.spares_valueType (by decide) p.scope object,
      ctx.spares_attribute? (by decide) object name span _⟩
  rw [← hnames] at haccess
  rw [target_field]
  generalize ctx.valueType p.scope object >>= ctx.attribute? (.field object name span) name = c
    at haccess hsilent
  split
  · rename_i hfound
    exact writeAttribute_records ho (haccess.mp hfound) (h.absorb hsilent)
  · rename_i hnone
    have hunreached : ∀ owner info, ¬ ctx.Reaches o.names object name owner info := by
      intro owner info hreaches
      rw [haccess.mpr hreaches] at hnone
      cases hnone
    exact (h.absorb hsilent).spared (not_givesValue_of_unreached ho hunreached)
      (not_offends_of_unreached ho hunreached)

/-! ### Parts of statements -/

/-- An assignment is recorded as a statement of its own. -/
theorem assignment_records (h : p.Records ctx os) (place value : Expr) (span : Span) :
    (ctx.assignment place value (.assign place value span) p).Records ctx
      (os ++ [⟨.assign place value span, p.scope.env⟩]) := by
  have hvalue := h.absorb (spares_valueType (by decide) ctx p.scope value)
  have htarget : (ctx.target (.assign place value span) place
      (p.absorb (ctx.valueType p.scope value))).2.Records ctx
        (os ++ [⟨.assign place value span, p.scope.env⟩]) := by
    cases place with
    | ident name nameSpan =>
      exact writeName_records (o := ⟨.assign (.ident name nameSpan) value span, p.scope.env⟩)
        hvalue rfl rfl nameSpan
    | field object name fieldSpan =>
      exact fieldTarget_records
        (o := ⟨.assign (.field object name fieldSpan) value span, p.scope.env⟩) hvalue rfl rfl
    | _ => exact (hvalue.absorb (spares_valueType (by decide) ctx _ _)).ofNone rfl
  simp only [assignment, withValue]
  split
  · rename_i hq
    rw [hq] at htarget
    exact htarget.demand (by simp)
  · rename_i hq
    rw [hq] at htarget
    exact htarget

private theorem condition_records (h : p.Records ctx os) (e : Expr) (stmt : Stmt) :
    (ctx.condition e stmt p).Records ctx os :=
  h.congr (ctx.condition_assigned e stmt p) (breaches_condition (by decide) ctx p e stmt)

private theorem bounds_records (h : p.Records ctx os) (first last : Expr) (stmt : Stmt) :
    (ctx.bounds first last stmt p).Records ctx os :=
  h.congr (ctx.bounds_assigned first last stmt p)
    (breaches_bounds (by decide) ctx p first last stmt)

private theorem returned_records (h : p.Records ctx os) (value : Option Expr) (stmt : Stmt) :
    (ctx.returned value stmt p).Records ctx os :=
  h.congr (ctx.returned_assigned value stmt p) (breaches_returned (by decide) ctx p value stmt)

private theorem declareLocals_records (h : p.Records ctx os) (isFinal : Bool) (T : Ty) (stmt : Stmt)
    (ds : List Declarator) : (ctx.declareLocals isFinal T stmt ds p).Records ctx os :=
  h.congr (ctx.declareLocals_assigned isFinal T stmt ds p)
    (breaches_declareLocals (by decide) ctx p isFinal T stmt ds)

end

/-! ## Steps and members -/

/-- What a statement has besides statements is reported if it writes to what cannot be written. -/
theorem own_records {ctx : Context} {os : List Occurrence} {p : Progress}
    (h : p.Records ctx os) (s : Stmt) :
    (ctx.own s p).Records ctx (os ++ [⟨s, p.scope.env⟩]) := by
  cases s with
  | declare isFinal type ds span =>
    have htype := h.absorb (spares_demandType (by decide) ctx type)
    exact (declareLocals_records htype _ _ _ ds).ofNone rfl
  | assign place value span => exact assignment_records h place value span
  | ifThen cond thenBranch span => exact (condition_records h cond _).ofNone rfl
  | ifElse cond thenBranch elseBranch span => exact (condition_records h cond _).ofNone rfl
  | loop id first last direction body span =>
    exact bounds_records (counter_records (o := ⟨.loop id first last direction body span,
      p.scope.env⟩) h rfl rfl) first last _
  | breakLoop span => exact (h.demand (by simp)).ofNone rfl
  | continueLoop span => exact (h.demand (by simp)).ofNone rfl
  | returnValue value span => exact (returned_records h value _).ofNone rfl
  | call invocation span =>
    exact (h.absorb (spares_exprType (by decide) ctx _ invocation)).ofNone rfl
  | block stmts span => exact h.ofNone rfl

/-- The steps of statements are reported as the statements that they come to, one after
another. -/
theorem runAll_records {ctx : Context} (hw : ctx.walk = .exhaustive) {ns : List Nesting}
    {steps : List Step} (hsteps : ∀ step ∈ steps, step.InBody ctx ns) {p : Progress}
    {os : List Occurrence} (h : p.Records ctx os) :
    (Step.runAll p steps).Records ctx
      (os ++ (Step.collect Step.arrivals p steps).map Arrival.occurrence) := by
  induction steps generalizing p os with
  | nil => simpa using h
  | cons step steps ih =>
    obtain ⟨hstep, hsteps⟩ := List.forall_mem_cons.mp hsteps
    have hframe : ∀ f, (p.inScope f).Records ctx (os ++ []) := fun f => by
      rw [List.append_nil]
      exact h.inScope f
    have hnext : (step.run p).Records ctx (os ++ (step.arrivals p).map Arrival.occurrence) := by
      cases step with
      | stmt ctx' place =>
        obtain ⟨rfl, -⟩ := hstep
        rw [Step.run_stmt (halts_of_exhaustive hw p)]
        exact own_records h place.stmt
      | enterClass name => exact hstep.elim
      | head ctx m => exact hstep.elim
      | params ctx ps => exact hstep.elim
      | _ => exact hframe _
    rw [Step.collect_cons, List.map_append, ← List.append_assoc]
    exact ih hsteps hnext

/-- The writes to constants that come up in statements are those of the statements in them. -/
theorem statements_records {ctx : Context} (hw : ctx.walk = .exhaustive) (ss : List Stmt)
    {p : Progress} (h : p.Records ctx [])
    (hdecl : (ctx.statements ss p).Reports (·.priority ≠ .declaration)) :
    (ctx.statements ss p).Records ctx (ctx.allOccurrences p.scope.env ss) := by
  have hsteps := runAll_records hw (ctx.inBody_traceAll ss [] p) h
  rw [runAll_traceAll, List.nil_append] at hsteps
  rw [← map_occurrence_allArrivals hw ss [] hdecl]
  exact hsteps

/-- The writes to constants that come up in a member are those of its statements. -/
theorem member_records {ctx : Context} (hw : ctx.walk = .exhaustive) (m : Member)
    (hdecl : (ctx.member m .start).Reports (·.priority ≠ .declaration)) :
    (ctx.member m .start).Records (ctx.inMember m) ((ctx.inMember m).memberOccurrences m) := by
  have hw' : (ctx.inMember m).walk = .exhaustive := (ctx.inMember_walk m).trans hw
  have hentry : (ctx.memberEntry m .start).Records (ctx.inMember m) [] := by
    constructor
    · simp [memberEntry]
    · exact breaches_memberEntry (by decide) ctx .start m
  rw [member_eq_statements] at hdecl ⊢
  have henv : (ctx.memberEntry m .start).scope.env = m.params.map Param.toLocal :: globalEnv := by
    have hparams := env_declareParams m.params
      (hdecl.of_grows ((ctx.inMember m).statements_grows m.stmts _))
    rw [Progress.inScope_scope, memberHead_scope] at hparams
    exact hparams
  have hstmts := statements_records hw' m.stmts hentry hdecl
  rw [henv] at hstmts
  exact hstmts.inScope .pop

end Context

/-! ## Programs -/

namespace ClassTable

/-- The statements of a member of a class that write to what cannot be written. -/
def constantWrites (t : ClassTable) (className : String) (m : Member) : List Stmt :=
  let ctx := (Context.ofClass .exhaustive t className).inMember m
  ctx.offenders [] (ctx.memberOccurrences m)

/-- Without violations of declarations the writes to constants of a member are its offenders. -/
theorem filter_memberViolations {t : ClassTable} {className : String} {m : Member}
    (h : ∀ v ∈ t.memberViolations className m, v.priority ≠ .declaration) :
    (t.memberViolations className m).filter (·.rule? = some .cannotAssignToConstant) =
      (t.constantWrites className m).map (·.breaks .cannotAssignToConstant) := by
  have hw : (Context.ofClass .exhaustive t className).walk = .exhaustive := rfl
  exact (Context.member_records hw m fun v hv => h v (Event.mem_violations_iff.mpr hv)).writes

end ClassTable

namespace Program

/-- A program whose names are all declared, and none twice, is reported for its writes to
constants: for each statement of each member that writes to what cannot be written, in order and
once. An assignment to an element is never among them. -/
theorem analyze_reports_constant_writes {p : Program} {a : Analysis} (h : p.analyze = .ok a)
    (hdecl : ∀ v ∈ Event.violations a.events, v.priority ≠ .declaration) :
    Event.constantWrites a.events = (p.classes.flatMap fun c => c.members.flatMap fun m =>
        (a.table.constantWrites c.name.name m).map (·.breaks .cannotAssignToConstant)) ∧
      ∀ className m object position value indexSpan span,
        .assign (.index object position indexSpan) value span ∉
          a.table.constantWrites className m := by
  have hevents := violations_of_analyze h hdecl
  rw [hevents] at hdecl
  constructor
  · rw [Event.constantWrites, hevents, List.filter_flatMap]
    refine List.flatMap_congr fun c hc => ?_
    rw [ClassTable.classViolations, List.filter_flatMap]
    refine List.flatMap_congr fun m hm => ClassTable.filter_memberViolations fun v hv => ?_
    exact hdecl v (List.mem_flatMap.mpr ⟨c, hc, List.mem_flatMap.mpr ⟨m, hm, hv⟩⟩)
  · intro className m object position value indexSpan span hmem
    obtain ⟨target, htarget⟩ := Context.exists_target_of_mem_offenders hmem
    cases htarget

/-- A class with two final attributes and a constructor with a parameter. The constructor gives
`lid` its value twice, writes to its parameter and to an element of `cells`, and counts with its
parameter. -/
def jarClass : ClassDecl :=
  ⟨⟨"Jar", ⟨6, 9⟩⟩, none, [
    .attribute ⟨false, true, .primitive .int ⟨16, 19⟩, [⟨"lid", none, ⟨20, 23⟩⟩]⟩ ⟨10, 24⟩,
    .attribute ⟨false, true, .array (.primitive .int ⟨30, 33⟩) 2 ⟨30, 36⟩,
      [⟨"cells", none, ⟨37, 42⟩⟩]⟩ ⟨24, 43⟩,
    .ctor ⟨"Jar", [⟨"n", .primitive .int ⟨47, 50⟩, ⟨51, 52⟩⟩], ⟨[
      .assign (.field (.self ⟨54, 58⟩) "lid" ⟨54, 62⟩) (.int 1 ⟨64, 65⟩) ⟨54, 66⟩,
      .assign (.field (.paren (.self ⟨67, 71⟩) ⟨66, 72⟩) "lid" ⟨66, 76⟩) (.int 2 ⟨78, 79⟩)
        ⟨66, 80⟩,
      .assign (.ident "n" ⟨80, 81⟩) (.int 3 ⟨83, 84⟩) ⟨80, 85⟩,
      .assign (.index (.ident "cells" ⟨85, 90⟩) (.int 0 ⟨91, 92⟩) ⟨85, 93⟩) (.int 4 ⟨95, 96⟩)
        ⟨85, 97⟩,
      .loop ⟨"n", ⟨101, 102⟩⟩ (.int 1 ⟨104, 105⟩) (.int 2 ⟨109, 110⟩) .up (.breakLoop ⟨114, 120⟩)
        ⟨97, 120⟩], ⟨53, 121⟩⟩⟩ ⟨43, 121⟩,
    .method ⟨true, none, mainName, [], ⟨[], ⟨139, 141⟩⟩⟩ ⟨121, 141⟩], ⟨0, 142⟩⟩

/-- The table of that class, and what comes up when it is checked. -/
def jarAnalysis : Analysis where
  table := ⟨[ClassTable.ioEntry, ⟨"Jar", none, [
    (mainName, ⟨some (.method ⟨none, [], true⟩), none, false⟩),
    ("Jar", ⟨none, some ⟨some (.object "Jar"), [("n", .int)], false⟩, false⟩),
    ("cells", ⟨some (.attribute ⟨.array .int 2, true, false, false⟩), none, false⟩),
    ("lid", ⟨some (.attribute ⟨.int, true, false, false⟩), none, false⟩)]⟩], true⟩
  events := [.enterClass "Jar",
    .violation (.broken .cannotAssignToConstant "(this).lid:=2" ⟨66, 80⟩),
    .violation (.broken .cannotAssignToConstant "n:=3" ⟨80, 85⟩),
    .violation (.broken .cannotAssignToConstant "for n:=1 to 2 do break" ⟨97, 120⟩)]

/-- The second value for `lid`, the write to the parameter and the loop are reported. -/
theorem jar_writes_to_constants : analyze ⟨[jarClass], ⟨0, 142⟩⟩ = .ok jarAnalysis ∧
    (∀ v ∈ Event.violations jarAnalysis.events, v.priority ≠ .declaration) ∧
    ([jarClass].flatMap fun c => c.members.flatMap fun m =>
        (jarAnalysis.table.constantWrites c.name.name m).map (·.breaks .cannotAssignToConstant)) =
      [.broken .cannotAssignToConstant "(this).lid:=2" ⟨66, 80⟩,
        .broken .cannotAssignToConstant "n:=3" ⟨80, 85⟩,
        .broken .cannotAssignToConstant "for n:=1 to 2 do break" ⟨97, 120⟩] := by
  have hanalyze : analyze ⟨[jarClass], ⟨0, 142⟩⟩ = .ok jarAnalysis := by decide +kernel
  have hdecl : ∀ v ∈ Event.violations jarAnalysis.events, v.priority ≠ .declaration := by
    decide +kernel
  exact ⟨hanalyze, hdecl, (analyze_reports_constant_writes hanalyze hdecl).1.symm⟩

end Program

end ClassCheck
