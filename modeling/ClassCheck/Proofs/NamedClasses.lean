import ClassCheck.Proofs.TypeSources

/-!
# The classes that types name

A type names at most one class, inside its arrays and references. The type of an expression can
name a class only if the type of some attribute, method or local name does, or if the class is
the one of the running object or is declared. So if all types that are written down keep to some
set of classes, all types that expressions get do, whether or not violations come up.
-/

namespace ClassCheck

namespace Ty

/-- The class named inside the type. -/
def className? : Ty → Option String
  | .primitive _ => none
  | .object c => some c
  | .array element _ => element.className?
  | .reference referent => referent.className?

/-- The class named inside the type, if any, has a property. -/
def Within (D : String → Prop) (T : Ty) : Prop := ∀ c, T.className? = some c → D c

@[simp] private theorem className?_decayed (T : Ty) : T.decayed.className? = T.className? := by
  induction T with
  | primitive type => rfl
  | object c => rfl
  | array element size _ => rfl
  | reference referent ih => exact ih

/-- A type names the class that it was written with. -/
theorem className?_ofWritten (type : WrittenType) :
    (ofWritten type).className? = type.className?.map (·.name) := by
  induction type with
  | primitive type span => rfl
  | named name span => rfl
  | array element size span ih => exact ih
  | reference referent span ih => exact ih

/-- Primitive types name no class. -/
theorem within_primitive (D : String → Prop) (type : Primitive) :
    (primitive type).Within D := by
  intro c h
  cases h

private theorem within_object {D : String → Prop} {c : String} (h : D c) : (object c).Within D := by
  rintro _ ⟨⟩
  exact h

private theorem within_decayed_iff {D : String → Prop} {T : Ty} :
    T.decayed.Within D ↔ T.Within D := by
  rw [Within, className?_decayed]
  rfl

/-- What names a class of a set names one of a larger set. -/
theorem Within.mono {D D' : String → Prop} {T : Ty} (h : T.Within D) (hD : ∀ c, D c → D' c) :
    T.Within D' := fun c hc => hD c (h c hc)

end Ty

/-- The class named in the type of an expression, if any, has a property. -/
def ExprTy.Within (D : String → Prop) (τ : ExprTy) : Prop := ∀ T, τ = .known T → T.Within D

/-- All classes named in a signature have a property. -/
structure Signature.Within (D : String → Prop) (s : Signature) : Prop where
  /-- The class named in the type of the result. -/
  result : ∀ T, s.result = some T → T.Within D
  /-- The classes named in the types of the parameters. -/
  params : ∀ param ∈ s.params, param.2.Within D

/-- All classes named in the types that a class declares have a property. -/
structure ClassView.Within (D : String → Prop) (v : ClassView) : Prop where
  /-- The classes named in the types of attributes. -/
  attributes : ∀ name info, v.attributes name = some info → info.type.Within D
  /-- The classes named in the signatures of methods. -/
  methods : ∀ name signature, v.methods name = some signature → signature.Within D
  /-- The classes named in the signature of the constructor. -/
  ctor : ∀ signature, v.ctor = some signature → signature.Within D

/-- All classes named in the types of some classes have a property. -/
def Classes.Within (D : String → Prop) (K : Classes) : Prop := ∀ c v, K c = some v → v.Within D

/-- All classes named in the types of local names have a property. -/
def Env.Within (D : String → Prop) (Γ : Env) : Prop := ∀ frame ∈ Γ, ∀ l ∈ frame, l.type.Within D

/-- All classes named in what is declared under a name have a property. -/
structure NameSlot.Within (D : String → Prop) (s : NameSlot) : Prop where
  /-- The class named in the type of an attribute. -/
  attributes : ∀ info, s.value = some (.attribute info) → info.type.Within D
  /-- The classes named in the signature of a method. -/
  methods : ∀ signature, s.value = some (.method signature) → signature.Within D
  /-- The classes named in the signature of a constructor. -/
  ctor : ∀ signature, s.ctor = some signature → signature.Within D

/-- The types of a class are those in its slots. -/
theorem ClassEntry.view_within {D : String → Prop} {e : ClassEntry}
    (h : ∀ slot ∈ e.slots, slot.2.Within D) : e.view.Within D := by
  have hslot : ∀ name, (e.slotOf name).Within D := by
    intro name
    unfold slotOf slot?
    cases hl : e.slots.lookup name with
    | none => exact ⟨nofun, nofun, nofun⟩
    | some slot =>
      obtain ⟨l₁, l₂, hsplit, -⟩ := List.lookup_eq_some_iff.mp hl
      exact h (name, slot) (by simp [hsplit])
  refine ⟨?_, ?_, fun _ hs => (hslot e.name).ctor _ hs⟩
  · intro name info hi
    refine (hslot name).attributes info ?_
    simp only [view, attribute?] at hi
    split at hi
    · cases hi
      assumption
    · cases hi
  · intro name signature hs
    refine (hslot name).methods signature ?_
    simp only [view, method?] at hs
    split at hs
    · cases hs
      assumption
    · cases hs

/-- The classes of a table keep to a set if all entries do. -/
theorem ClassTable.classes_within {D : String → Prop} {t : ClassTable}
    (h : ∀ e ∈ t.entries, e.view.Within D) : t.classes.Within D := by
  intro c v hv
  obtain ⟨e, he, rfl⟩ := Option.map_eq_some_iff.mp hv
  exact h e (List.mem_of_find?_eq_some he)

/-! ## The types of expressions -/

/-- Asking for a value names no further class. -/
theorem Checked.within_demandValue {D : String → Prop} {e : Expr} {c : Checked ExprTy}
    (h : c.value.Within D) : (demandValue e c).value.Within D := all_demandValue h

/-- The classes of a context and those named in its types have a property. -/
structure Context.Within (D : String → Prop) (ctx : Context) : Prop where
  /-- The declared classes. -/
  declared : ∀ c, ctx.table.contains c = true → D c
  /-- The classes named in the types of members. -/
  table : ctx.table.classes.Within D
  /-- The class of the running object. -/
  current : D ctx.className

namespace Context

/-- If what is around an expression keeps to a set of classes, so does the type of the expression.
-/
theorem Within.carries {D : String → Prop} {ctx : Context} (hctx : ctx.Within D) {scope : Scope}
    (hscope : scope.env.Within D) : ctx.Carries (Ty.Within D) scope where
  primitive := Ty.within_primitive D
  current := Ty.within_object hctx.current
  declared c hc := Ty.within_object (hctx.declared c hc)
  members c v T hv hT := by
    rw [Ty.within_decayed_iff]
    cases hT with
    | ofAttribute hinfo => exact (hctx.table c v hv).attributes _ _ hinfo
    | ofResult hmethod hresult => exact ((hctx.table c v hv).methods _ _ hmethod).result T hresult
  names name l hl := Ty.within_decayed_iff.mpr (Env.All.lookup hscope hl)
  array T size hT := hT
  element T size hT := Ty.within_decayed_iff.mpr hT
  decayed T hT := Ty.within_decayed_iff.mpr hT

/-- The type of an expression names only classes that the types around it name, and declared
ones. -/
theorem exprType_within {D : String → Prop} {ctx : Context} (hctx : ctx.Within D) {scope : Scope}
    (hscope : scope.env.Within D) (e : Expr) : (ctx.exprType scope e).value.Within D :=
  exprType_all (hctx.carries hscope) e

end Context

/-! ## Types that are written down -/

/-- A class is declared, or else it is reported among some events that it is not. -/
def ClassTable.Accounts (t : ClassTable) (events : List Event) (c : String) : Prop :=
  t.contains c = true ∨ ∃ span, .violation (.broken .undeclaredClass c span) ∈ events

/-- Without violations all classes that are accounted for are declared. -/
theorem ClassTable.contains_of_accounts {t : ClassTable} {events : List Event}
    (h : Event.violations events = []) {c : String} (hc : t.Accounts events c) :
    t.contains c = true := by
  rcases hc with hc | ⟨span, hmem⟩
  · exact hc
  · have hv := Event.mem_violations_iff.mpr hmem
    rw [h] at hv
    cases hv

/-- Without violations, all classes that are accounted for are declared. -/
theorem ClassTable.accounts_eq_contains {t : ClassTable} {events : List Event}
    (h : Event.violations events = []) : t.Accounts events = fun c => t.contains c = true := by
  funext c
  exact propext ⟨contains_of_accounts h, Or.inl⟩

/-- Local names keep to a larger set, too. -/
theorem Env.Within.mono {D D' : String → Prop} {Γ : Env} (h : Γ.Within D)
    (hD : ∀ c, D c → D' c) : Γ.Within D' :=
  fun frame hframe l hl => (h frame hframe l hl).mono hD

/-- A frame put inside names no class. -/
theorem Env.Within.push {D : String → Prop} {Γ : Env} (h : Γ.Within D) :
    Env.Within D ([] :: Γ) := Env.All.push h

/-- A declaration names no class but that of its type. -/
theorem Progress.define_within {D : String → Prop} {p : Progress} {b : Binding}
    {span : Option Span} (hp : p.scope.env.Within D) (hb : b.type.Within D) :
    (p.define b span).scope.env.Within D := define_all hp hb

namespace Context

/-- Where a type is written, the class it names is declared or reported. -/
theorem within_of_demandType {ctx : Context} {type : WrittenType} {events : List Event}
    (h : (ctx.demandType type).events ⊆ events) :
    (Ty.ofWritten type).Within (ctx.table.Accounts events) := by
  intro c hc
  rw [Ty.className?_ofWritten] at hc
  obtain ⟨id, hid, rfl⟩ := Option.map_eq_some_iff.mp hc
  cases hcontains : ctx.table.contains id.name with
  | true => exact Or.inl hcontains
  | false =>
    refine Or.inr ⟨id.span, h ?_⟩
    simp [demandType, hid, hcontains, Checked.report, Checked.note]

/-- The counter of a loop names no class. -/
theorem loopHead_within {D : String → Prop} {ctx : Context} {id : Ident} {first last : Expr}
    {stmt : Stmt} {p : Progress} (hp : p.scope.env.Within D) :
    (ctx.loopHead id first last stmt p).scope.env.Within D :=
  loopHead_all (Ty.within_primitive D _) hp

/-- The classes named in the types of local names are declared or reported, after a statement as
before it. -/
theorem statement_within {ctx : Context} {s : Stmt} {p : Progress} {events : List Event}
    (hp : p.scope.env.Within (ctx.table.Accounts events))
    (h : (ctx.statement s p).events ⊆ events) :
    (ctx.statement s p).scope.env.Within (ctx.table.Accounts events) := by
  refine statement_all hp fun isFinal type ds span hs hhalts => ?_
  subst hs
  rw [statement_declare hhalts] at h
  have hgrows := ctx.declareLocals_grows isFinal (.ofWritten type)
    (.declare isFinal type ds span) ds (p.absorb (ctx.demandType type))
  exact within_of_demandType fun event hmem =>
    h (hgrows.subset (List.mem_append_right _ hmem))

/-- The type of every parameter is checked. -/
theorem demandType_subset_declareParams {ctx : Context} {params : List Param} {param : Param}
    (h : param ∈ params) (p : Progress) :
    (ctx.demandType param.type).events ⊆ (ctx.declareParams params p).events := by
  induction params generalizing p with
  | nil => cases h
  | cons first rest ih =>
    rw [declareParams]
    rcases List.mem_cons.mp h with rfl | h
    · intro event hmem
      refine (ctx.declareParams_grows rest _).subset ?_
      split
      · exact List.mem_append_right _ hmem
      · exact List.mem_append_left _ (List.mem_append_right _ hmem)
    · exact ih h _

/-- Parameters name classes that are declared or reported. -/
theorem declareParams_within {ctx : Context} {params : List Param} {p : Progress}
    {events : List Event} (hp : p.scope.env.Within (ctx.table.Accounts events))
    (h : (ctx.declareParams params p).events ⊆ events) :
    (ctx.declareParams params p).scope.env.Within (ctx.table.Accounts events) :=
  declareParams_all hp fun _ hparam =>
    within_of_demandType (List.Subset.trans (demandType_subset_declareParams hparam p) h)

end Context

end ClassCheck
