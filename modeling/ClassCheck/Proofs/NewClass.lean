import ClassCheck.Proofs.Independence
import ClassCheck.Proofs.ProgramStatics

/-!
# A new class breaks nothing that passed

Classes that extend each other only are looked at from inside a larger set of classes. A member
of one of them is found there where it was, and what inherits from what still does. A check that
finds no violation never looks further: it comes to no name and no type of a class that is not
declared. So it takes the same course in the larger set, step by step, and a program with one
more class has no violations outside of that class.
-/

namespace ClassCheck

/-! ## Classes inside a larger set of classes -/

/-- All classes of the one set are in the other and declare the same there, and no class of the
one set extends a class that only the other has. -/
structure Classes.EmbedsIn (K K' : Classes) : Prop where
  /-- Each class declares what it did. -/
  kept : ∀ {c v}, K c = some v → K' c = some v
  /-- The class that a class extends is in the set. -/
  parents : ∀ {c v d}, K c = some v → v.parent = some d → (K d).isSome = true

namespace Classes.EmbedsIn

variable {K K' : Classes} (h : K.EmbedsIn K')

include h

/-- A class is in the larger set, too. -/
theorem isSome {c : String} (hc : (K c).isSome = true) : (K' c).isSome = true := by
  obtain ⟨v, hv⟩ := Option.isSome_iff_exists.mp hc
  rw [h.kept hv]
  rfl

/-- A member is found where it was. -/
theorem nearest_iff {α : Type} {own : ClassView → Option α} {c owner : String} {a : α}
    (hc : (K c).isSome = true) : K'.Nearest own c owner a ↔ K.Nearest own c owner a := by
  constructor
  · intro hn
    induction hn with
    | here hv ho =>
      obtain ⟨v, hv'⟩ := Option.isSome_iff_exists.mp hc
      obtain rfl := Option.some.inj ((h.kept hv').symm.trans hv)
      exact .here hv' ho
    | above hv ho hp _ ih =>
      obtain ⟨v, hv'⟩ := Option.isSome_iff_exists.mp hc
      obtain rfl := Option.some.inj ((h.kept hv').symm.trans hv)
      exact .above hv' ho hp (ih (h.parents hv' hp))
  · intro hn
    induction hn with
    | here hv ho => exact .here (h.kept hv) ho
    | above hv ho hp _ ih => exact .above (h.kept hv) ho hp (ih (h.parents hv hp))

/-- What inherits in the one set inherits in the larger one. -/
theorem inherits {sub sup : String} (hi : K.Inherits sub sup) : K'.Inherits sub sup :=
  hi.lift id fun _ _ ⟨v, hv, hp⟩ => ⟨v, h.kept hv, hp⟩

end Classes.EmbedsIn

namespace ClassTable

variable {t t' : ClassTable} (h : t.classes.EmbedsIn t'.classes)

include h

private theorem contains_embedded {c : String} (hc : t.contains c = true) :
    t'.contains c = true := by
  rw [← isSome_classes] at hc ⊢
  exact h.isSome hc

/-- An attribute of a class is found in the larger table where it was. -/
theorem findAttribute?_embedded {c : String} (hc : t.contains c = true) (name : String) :
    t'.findAttribute? c name = t.findAttribute? c name := by
  rw [← isSome_classes] at hc
  apply Option.ext
  rintro ⟨owner, info⟩
  rw [findAttribute?_eq_some_iff, findAttribute?_eq_some_iff, h.nearest_iff hc]

/-- So is a method. -/
theorem findMethod?_embedded {c : String} (hc : t.contains c = true) (name : String) :
    t'.findMethod? c name = t.findMethod? c name := by
  rw [← isSome_classes] at hc
  apply Option.ext
  rintro ⟨owner, signature⟩
  rw [findMethod?_eq_some_iff, findMethod?_eq_some_iff, h.nearest_iff hc]

/-- So is a constructor. -/
theorem ctor?_embedded {c : String} (hc : t.contains c = true) : t'.ctor? c = t.ctor? c := by
  rw [← isSome_classes] at hc
  obtain ⟨v, hv⟩ := Option.isSome_iff_exists.mp hc
  rw [ctor?_eq_bind, ctor?_eq_bind, hv, h.kept hv]

/-- What fits still does. -/
theorem compatible_embedded {expected : Ty} {actual : ExprTy}
    (hfits : t.compatible expected actual = true) : t'.compatible expected actual = true := by
  have hsub : ∀ {sub sup}, t.isSubclass sub sup = true → t'.isSubclass sub sup = true := by
    intro sub sup hs
    rw [isSubclass_iff] at hs ⊢
    exact h.inherits hs
  have hbinds : ∀ {a b}, t.bindsReference a b = true → t'.bindsReference a b = true := by
    intro a b hb
    unfold bindsReference at hb ⊢
    split <;> simp_all
  have hassign : ∀ {a b}, t.isAssignable a b = true → t'.isAssignable a b = true := by
    intro a b hb
    unfold isAssignable at hb ⊢
    split <;> simp_all
  unfold compatible at hfits ⊢
  cases actual with
  | known actual =>
    cases expected with
    | reference referent => exact hbinds hfits
    | _ => exact hassign hfits
  | _ => exact hfits

/-- Arguments that fit still do. -/
theorem argumentsFit_embedded {params : List (String × Ty)} {args : List ExprTy}
    (hfit : t.argumentsFit params args = true) : t'.argumentsFit params args = true := by
  rw [argumentsFit, Bool.and_eq_true, List.all_eq_true] at hfit ⊢
  exact ⟨hfit.1, fun pair hpair => compatible_embedded h (hfit.2 pair hpair)⟩

end ClassTable

/-! ## Expressions -/

namespace Checked

/-- Two checks in a row are clean just if both are. -/
theorem clean_bind_iff {α β : Type} {c : Checked α} {f : α → Checked β} :
    (c >>= f).Clean ↔ c.Clean ∧ (f c.value).Clean := by
  unfold Clean
  rw [bind_events, Event.violations_append, List.append_eq_nil_iff]

private theorem bind_congr_value {α β : Type} {c : Checked α} {f g : α → Checked β}
    (h : f c.value = g c.value) : c >>= f = c >>= g := by
  simp only [bind, h]

@[simp] private theorem not_clean_report_bind {α : Type} {v : Violation} {f : Unit → Checked α} :
    ¬ (report v >>= f).Clean := by
  rw [clean_bind_iff]
  rintro ⟨hreport, -⟩
  cases hreport

end Checked

private theorem Signature.yields_ne_classRef (s : Signature) (c : String) :
    s.yields ≠ .classRef c := by
  unfold Signature.yields
  cases s.result <;> simp [ExprTy.value]

/-- An expression that stands for a class stands for one that can be named, or for that of input
and output. -/
theorem HasType.classRef {S : Setting} {Γ : Env} {e : Expr} {c : String}
    (h : HasType S Γ e (.classRef c)) : c = ioClass ∨ (S.classes c).isSome = true := by
  generalize hτ : ExprTy.classRef c = τ at h
  cases h with
  | facility _ _ =>
    cases hτ
    exact Or.inl rfl
  | className _ _ hsome =>
    cases hτ
    exact Or.inr hsome
  | paren hinner =>
    subst hτ
    exact hinner.classRef
  | call _ _ _ _ _ _ => exact absurd hτ.symm (Signature.yields_ne_classRef _ c)
  | _ => simp [ExprTy.value] at hτ
termination_by sizeOf e

namespace Context

open Checked

/-- A context has the classes of another with more around them, and is for the same kind of member
of the same class. -/
structure EmbedsIn (ctx ctx' : Context) : Prop where
  /-- How far the traversal goes. -/
  walk : ctx'.walk = ctx.walk
  /-- The classes. -/
  classes : ctx.table.classes.EmbedsIn ctx'.table.classes
  /-- Input and output are among them. -/
  io : ctx.table.contains ioClass = true
  /-- The class of the member. -/
  className : ctx'.className = ctx.className
  /-- Whether the member belongs to the class itself. -/
  isStatic : ctx'.isStatic = ctx.isStatic
  /-- Whether the member is a constructor. -/
  inCtor : ctx'.inCtor = ctx.inCtor
  /-- The type of the member's result. -/
  result : ctx'.result = ctx.result

section

variable {ctx ctx' : Context} (h : ctx.EmbedsIn ctx')

include h

private theorem ownAttribute?_embedded {scope : Scope} (hc : ctx.Closed scope) (name : String) :
    ctx'.table.findAttribute? ctx'.className name =
      ctx.table.findAttribute? ctx.className name := by
  rw [h.className, ClassTable.findAttribute?_embedded h.classes hc.current]

/-- A name whose check is clean is found as before. -/
theorem identType_embedded {scope : Scope} (hc : ctx.Closed scope) {name : String} {e : Expr}
    (hclean : (ctx.identType scope name e).Clean) :
    ctx'.identType scope name e = ctx.identType scope name e := by
  unfold identType at hclean ⊢
  rw [ownAttribute?_embedded h hc]
  cases hl : scope.lookup? name with
  | some b => rfl
  | none =>
    cases ha : ctx.table.findAttribute? ctx.className name with
    | some found => rfl
    | none =>
      simp only [hl, ha] at hclean ⊢
      cases hcontains : ctx.table.contains name with
      | true => rw [ClassTable.contains_embedded h.classes hcontains]
      | false => simp [hcontains] at hclean

/-- The class before a dot is found where it was. -/
theorem receiver?_embedded {τ : ExprTy}
    (hτ : ∀ c viaClass, τ.Denotes c viaClass → ctx.table.contains c = true) (access : Expr) :
    ctx'.receiver? access τ = ctx.receiver? access τ ∧
      ∀ r, (ctx.receiver? access τ).value = some r → ctx.table.contains r.className = true := by
  unfold receiver?
  split
  · rename_i c
    refine ⟨rfl, ?_⟩
    rintro _ ⟨⟩
    exact hτ c true .ofClass
  · rename_i c
    have hcontains := hτ c false .ofObject
    rw [hcontains, ClassTable.contains_embedded h.classes hcontains]
    refine ⟨rfl, ?_⟩
    rintro _ ⟨⟩
    exact hcontains
  all_goals
    refine ⟨rfl, ?_⟩
    rintro _ ⟨⟩

/-- An attribute behind a dot is found as before if the class of the object is in the table. -/
theorem attribute?_embedded {τ : ExprTy}
    (hτ : ∀ c viaClass, τ.Denotes c viaClass → ctx.table.contains c = true) (access : Expr)
    (name : String) : ctx'.attribute? access name τ = ctx.attribute? access name τ := by
  obtain ⟨hreceiver, hcontains⟩ := receiver?_embedded h hτ access
  rw [attribute?, attribute?, hreceiver]
  refine bind_congr_value ?_
  cases hr : (ctx.receiver? access τ).value with
  | none => rfl
  | some r => simp only [ClassTable.findAttribute?_embedded h.classes (hcontains r hr)]

/-- So is a method behind a dot. -/
theorem method?_embedded {τ : ExprTy}
    (hτ : ∀ c viaClass, τ.Denotes c viaClass → ctx.table.contains c = true) (call : Expr)
    (name : String) : ctx'.method? call name τ = ctx.method? call name τ := by
  obtain ⟨hreceiver, hcontains⟩ := receiver?_embedded h hτ call
  rw [method?, method?, hreceiver]
  refine bind_congr_value ?_
  cases hr : (ctx.receiver? call τ).value with
  | none => rfl
  | some r => simp only [ClassTable.findMethod?_embedded h.classes (hcontains r hr)]

/-- A call that is clean has the same result. -/
theorem callResult_embedded {call : Expr} {signature : Option Signature} {args : List ExprTy}
    (hclean : (ctx.callResult call signature args).Clean) :
    ctx'.callResult call signature args = ctx.callResult call signature args := by
  cases signature with
  | none => rfl
  | some signature =>
    unfold callResult at hclean ⊢
    dsimp only at hclean ⊢
    cases hfit : ctx.table.argumentsFit signature.params args with
    | true => rw [ClassTable.argumentsFit_embedded h.classes hfit]
    | false => simp [hfit, poison] at hclean

private theorem demandClass_embedded {className : String} {e : Expr}
    (hclean : (ctx.demandClass className e).Clean) :
    ctx'.demandClass className e = ctx.demandClass className e := by
  have hcontains := yields_demandClass_iff.mp hclean.yields
  rw [demandClass, demandClass, hcontains, ClassTable.contains_embedded h.classes hcontains]

/-- A clean creation of an object has the same result. -/
theorem createResult_embedded {e : Expr} {className : String} {args : List ExprTy}
    (hcontains : ctx.table.contains className = true)
    (hclean : (ctx.createResult e className args).Clean) :
    ctx'.createResult e className args = ctx.createResult e className args := by
  unfold createResult at hclean ⊢
  rw [ClassTable.contains_embedded h.classes hcontains, ClassTable.ctor?_embedded h.classes hcontains]
  rw [hcontains] at hclean ⊢
  simp only [if_true] at hclean ⊢
  cases hfit : ctx.table.argumentsFit
      (((ctx.table.ctor? className).map Signature.params).getD []) args with
  | true => rw [ClassTable.argumentsFit_embedded h.classes hfit]
  | false => simp [hfit, poison] at hclean

end

/-- The class before a dot is declared, whether it is named or has an object there. -/
theorem contains_of_denotes {ctx : Context} (hio : ctx.table.contains ioClass = true)
    {scope : Scope} (hc : ctx.Closed scope) {e : Expr} {τ : ExprTy}
    (htype : HasType ctx.setting scope.env e τ) {c : String} {viaClass : Bool}
    (hd : τ.Denotes c viaClass) : ctx.table.contains c = true := by
  cases hd with
  | ofClass =>
    rcases htype.classRef with rfl | hsome
    · exact hio
    · rwa [← ClassTable.isSome_classes]
  | ofObject => exact within_of_hasType hc htype (.object c) rfl c rfl

mutual

/-- An expression without a violation is checked alike among more classes. -/
theorem exprType_embedded {ctx ctx' : Context} (h : ctx.EmbedsIn ctx') {scope : Scope}
    (hc : ctx.Closed scope) (e : Expr) (hclean : (ctx.exprType scope e).Clean) :
    ctx'.exprType scope e = ctx.exprType scope e := by
  have hdenotes : ∀ {object : Expr}, (demandValue object (ctx.exprType scope object)).Clean →
      ∀ c viaClass, (demandValue object (ctx.exprType scope object)).value.Denotes c viaClass →
        ctx.table.contains c = true := by
    intro object hobject c viaClass hd
    have htype := hasType_of_yields hc object (yields_demandValue_iff.mp hobject.yields).1
    exact contains_of_denotes h.io hc htype hd
  cases e with
  | int _ _ | float _ _ | bool _ _ | string _ _ | nil _ => simp only [exprType]
  | self span => simp only [exprType, selfType, h.isStatic, h.className]
  | ident name span =>
    rw [exprType] at hclean
    rw [exprType, exprType, identType_embedded h hc hclean]
  | paren inner span =>
    rw [exprType] at hclean
    rw [exprType, exprType, exprType_embedded h hc inner hclean]
  | binary op left right span =>
    rw [exprType, clean_bind_iff, clean_bind_iff] at hclean
    obtain ⟨hleft, hright, -⟩ := hclean
    rw [exprType, exprType, exprType_embedded h hc left (clean_bind_iff.mp hleft).1,
      exprType_embedded h hc right (clean_bind_iff.mp hright).1]
  | unary op operand span =>
    rw [exprType, clean_bind_iff] at hclean
    rw [exprType, exprType, exprType_embedded h hc operand (clean_bind_iff.mp hclean.1).1]
  | index object position span =>
    rw [exprType, clean_bind_iff, clean_bind_iff] at hclean
    obtain ⟨hobject, hposition, -⟩ := hclean
    rw [exprType, exprType, exprType_embedded h hc object (clean_bind_iff.mp hobject).1,
      exprType_embedded h hc position (clean_bind_iff.mp hposition).1]
  | field object name span =>
    rw [exprType, clean_bind_iff] at hclean
    rw [exprType, exprType, exprType_embedded h hc object (clean_bind_iff.mp hclean.1).1]
    refine bind_congr_value ?_
    rw [attribute?_embedded h (hdenotes hclean.1)]
  | call receiver method args span =>
    rw [exprType, clean_bind_iff, clean_bind_iff, clean_bind_iff] at hclean
    obtain ⟨hreceiver, -, hargs, hresult⟩ := hclean
    rw [exprType, exprType, exprType_embedded h hc receiver (clean_bind_iff.mp hreceiver).1]
    refine bind_congr_value ?_
    rw [method?_embedded h (hdenotes hreceiver), valueTypes_embedded h hc args hargs]
    exact bind_congr_value (bind_congr_value (callResult_embedded h hresult))
  | create className args span =>
    rw [exprType, clean_bind_iff, clean_bind_iff] at hclean
    obtain ⟨hclass, hargs, hresult⟩ := hclean
    have hcontains := yields_demandClass_iff.mp hclass.yields
    rw [exprType, exprType, demandClass_embedded h hclass, valueTypes_embedded h hc args hargs]
    exact bind_congr_value (bind_congr_value (createResult_embedded h hcontains hresult))
  | array elements span =>
    rw [exprType, clean_bind_iff] at hclean
    rw [exprType, exprType, valueTypes_embedded h hc elements hclean.1]

private theorem valueTypes_embedded {ctx ctx' : Context} (h : ctx.EmbedsIn ctx') {scope : Scope}
    (hc : ctx.Closed scope) (es : List Expr) (hclean : (ctx.valueTypes scope es).Clean) :
    ctx'.valueTypes scope es = ctx.valueTypes scope es := by
  cases es with
  | nil => simp only [valueTypes]
  | cons e es =>
    rw [valueTypes, clean_bind_iff, clean_bind_iff] at hclean
    obtain ⟨he, hes, -⟩ := hclean
    rw [valueTypes, valueTypes, exprType_embedded h hc e (clean_bind_iff.mp he).1,
      valueTypes_embedded h hc es hes]

end

/-! ## Parts of statements -/

section

variable {ctx ctx' : Context} (h : ctx.EmbedsIn ctx')

include h

private theorem valueType_embedded {scope : Scope} (hc : ctx.Closed scope) {e : Expr}
    (hclean : (ctx.valueType scope e).Clean) :
    ctx'.valueType scope e = ctx.valueType scope e := by
  rw [valueType, valueType, exprType_embedded h hc e (clean_bind_iff.mp hclean).1]

private theorem demandType_embedded {type : WrittenType} (hclean : (ctx.demandType type).Clean) :
    ctx'.demandType type = ctx.demandType type := by
  have hknows := clean_demandType_iff.mp hclean
  unfold demandType
  cases hclass : type.className? with
  | none => rfl
  | some id =>
    have hcontains : ctx.table.contains id.name = true := by
      rw [← ClassTable.isSome_classes]
      exact hknows id hclass
    simp only [hcontains, ClassTable.contains_embedded h.classes hcontains]

/-- A clean check of an initial value takes the same course. -/
theorem initializer_embedded {scope : Scope} (hc : ctx.Closed scope) {isFinal : Bool}
    {declared : Ty} {init : Expr} {blame : Rule → Violation}
    (hclean : (ctx.initializer scope isFinal declared init blame).Clean) :
    ctx'.initializer scope isFinal declared init blame =
      ctx.initializer scope isFinal declared init blame := by
  rw [initializer, clean_bind_iff] at hclean
  rw [initializer, initializer, valueType_embedded h hc hclean.1]
  refine bind_congr_value ?_
  cases hfits : ctx.table.compatible declared (ctx.valueType scope init).value with
  | true => rw [ClassTable.compatible_embedded h.classes hfits]
  | false => simp [hfits] at hclean

private theorem localInit_embedded {p : Progress} (hc : ctx.Closed p.scope) {isFinal : Bool}
    {declared : Ty} {stmt : Stmt} {d : Declarator}
    (hclean : (ctx.localInit isFinal declared stmt d p).Clean) :
    ctx'.localInit isFinal declared stmt d p = ctx.localInit isFinal declared stmt d p := by
  unfold localInit at hclean ⊢
  cases hinit : d.init with
  | none => rfl
  | some init =>
    simp only [hinit, Progress.clean_absorb_iff] at hclean ⊢
    rw [initializer_embedded h hc hclean.2]

/-- Local names are declared by the same course. -/
theorem declareLocals_embedded {isFinal : Bool} {T : Ty} {stmt : Stmt}
    (hT : T.Within fun c => ctx.table.contains c = true) (ds : List Declarator) {p : Progress}
    (hc : ctx.Closed p.scope) (hclean : (ctx.declareLocals isFinal T stmt ds p).Clean) :
    ctx'.declareLocals isFinal T stmt ds p = ctx.declareLocals isFinal T stmt ds p := by
  induction ds generalizing p with
  | nil => rfl
  | cons d ds ih =>
    rw [declareLocals] at hclean
    rw [declareLocals, declareLocals]
    split
    · rfl
    · rename_i hlocal
      rw [if_neg hlocal] at hclean
      have hinit := Progress.clean_define_iff.mp
        (hclean.of_grows (ctx.declareLocals_grows _ _ _ _ _))
      dsimp only
      rw [localInit_embedded h hc hinit]
      exact ih (Closed.define (by rwa [localInit_scope]) hT) hclean

private theorem writeName_embedded {p : Progress} (hc : ctx.Closed p.scope) {stmt : Stmt}
    {name : String} {span : Span} (hclean : (ctx.writeName stmt name span p).2.Clean) :
    ctx'.writeName stmt name span p = ctx.writeName stmt name span p := by
  unfold writeName at hclean ⊢
  rw [ownAttribute?_embedded h hc]
  cases hl : p.scope.lookup? name with
  | some b => rfl
  | none =>
    cases ha : ctx.table.findAttribute? ctx.className name with
    | some found => rfl
    | none =>
      simp only [hl, ha] at hclean
      split at hclean <;> exact absurd hclean Progress.not_clean_report

private theorem writeAttribute_embedded (stmt : Stmt) (object : Expr) (name owner : String)
    (info : AttributeInfo) (p : Progress) :
    ctx'.writeAttribute stmt object name owner info p =
      ctx.writeAttribute stmt object name owner info p := by
  unfold writeAttribute mayInitialize
  rw [h.inCtor, h.className]

/-- A place to write to is found by the same course. -/
theorem target_embedded {p : Progress} (hc : ctx.Closed p.scope) {stmt : Stmt} {place : Expr}
    (hclean : (ctx.target stmt place p).2.Clean) :
    ctx'.target stmt place p = ctx.target stmt place p := by
  cases place with
  | ident name span => exact writeName_embedded h hc hclean
  | field object name span =>
    have hobject : (ctx.valueType p.scope object).Clean := by
      have hgrows : (p.absorb (ctx.valueType p.scope object)).events <+:
          (ctx.target stmt (.field object name span) p).2.events := by
        simp only [target, withValue]
        split
        · exact (Progress.absorb_grows _ _).trans (ctx.writeAttribute_grows _ _ _ _ _ _)
        · exact Progress.absorb_grows _ _
      exact (Progress.clean_absorb_iff.mp (hclean.of_grows hgrows)).2
    have htype := hasType_of_yields hc object (yields_demandValue_iff.mp hobject.yields).1
    simp only [target, withValue, valueType_embedded h hc hobject, writeAttribute_embedded h]
    rw [attribute?_embedded h fun _ _ => contains_of_denotes h.io hc htype]
  | _ =>
    have hvalue := (Progress.clean_absorb_iff.mp hclean).2
    simp only [target, withValue, valueType_embedded h hc hvalue]

/-- A clean assignment takes the same course. -/
theorem assignment_embedded {p : Progress} (hc : ctx.Closed p.scope) {place value : Expr}
    {stmt : Stmt} (hclean : (ctx.assignment place value stmt p).Clean) :
    ctx'.assignment place value stmt p = ctx.assignment place value stmt p := by
  have htarget := hclean.of_grows (ctx.target_prefix_assignment place value stmt p)
  have hvalue := (Progress.clean_absorb_iff.mp
    (htarget.of_grows (ctx.target_grows stmt place _))).2
  simp only [assignment, withValue] at hclean ⊢
  rw [valueType_embedded h hc hvalue,
    target_embedded (p := p.absorb (ctx.valueType p.scope value)) h hc htarget]
  split
  · rename_i expected q htype
    simp only [htype, Progress.clean_demand_iff] at hclean
    rw [hclean.2, ClassTable.compatible_embedded h.classes hclean.2]
  · rfl

private theorem condition_embedded {p : Progress} (hc : ctx.Closed p.scope) {e : Expr} {stmt : Stmt}
    (hclean : (ctx.condition e stmt p).Clean) :
    ctx'.condition e stmt p = ctx.condition e stmt p := by
  have hvalue := hclean.of_grows (Progress.demand_grows _ _ _)
  simp only [condition, withValue,
    valueType_embedded h hc (Progress.clean_absorb_iff.mp hvalue).2]

private theorem counter_embedded {p : Progress} (hc : ctx.Closed p.scope) (id : Ident)
    (stmt : Stmt) : ctx'.counter id stmt p = ctx.counter id stmt p := by
  unfold counter counter?
  rw [ownAttribute?_embedded h hc]

private theorem bounds_embedded {p : Progress} (hc : ctx.Closed p.scope) {first last : Expr}
    {stmt : Stmt} (hclean : (ctx.bounds first last stmt p).Clean) :
    ctx'.bounds first last stmt p = ctx.bounds first last stmt p := by
  have hlast := hclean.of_grows (Progress.demand_grows _ _ _)
  have hfirst := hlast.of_grows (Progress.absorb_grows _ _)
  simp only [bounds, withValue, Progress.absorb_scope,
    valueType_embedded h hc (Progress.clean_absorb_iff.mp hfirst).2,
    valueType_embedded h hc (Progress.clean_absorb_iff.mp hlast).2]

/-- The head of a loop takes the same course. -/
theorem loopHead_embedded {p : Progress} (hc : ctx.Closed p.scope) {id : Ident}
    {first last : Expr} {stmt : Stmt} (hclean : (ctx.loopHead id first last stmt p).Clean) :
    ctx'.loopHead id first last stmt p = ctx.loopHead id first last stmt p := by
  have hbounds := hc.loopHead id first last stmt
  rw [loopHead, bounds_scope] at hbounds
  rw [loopHead, loopHead, counter_embedded (p := p.inScope .push) h hc.push,
    bounds_embedded h hbounds hclean]

/-- So does a return. -/
theorem returned_embedded {p : Progress} (hc : ctx.Closed p.scope) {value : Option Expr}
    {stmt : Stmt} (hclean : (ctx.returned value stmt p).Clean) :
    ctx'.returned value stmt p = ctx.returned value stmt p := by
  cases value with
  | none => rw [returned, returned, h.result]
  | some e =>
    have hvalue := hclean.of_grows (Progress.demand_grows _ _ _)
    simp only [returned, withValue, Progress.clean_demand_iff] at hclean
    simp only [returned, withValue, h.result,
      valueType_embedded h hc (Progress.clean_absorb_iff.mp hvalue).2]
    cases hresult : ctx.result with
    | none => rfl
    | some expected =>
      have hfits : ctx.table.compatible expected (ctx.valueType p.scope e).value = true := by
        simpa [hresult] using hclean.2
      simp only [Option.any_some, hfits, ClassTable.compatible_embedded h.classes hfits]

end

/-! ## Statements and members -/

mutual

/-- A statement without a violation is checked alike among more classes. -/
theorem statement_embedded {ctx ctx' : Context} (h : ctx.EmbedsIn ctx') (s : Stmt)
    {p : Progress} (hc : ctx.Closed p.scope) (hclean : (ctx.statement s p).Clean) :
    ctx'.statement s p = ctx.statement s p := by
  have hp := hclean.of_grows (ctx.statement_grows s p)
  have hh := hp.halts ctx
  have hh' := hp.halts ctx'
  cases s with
  | declare isFinal type ds span =>
    rw [statement_declare hh] at hclean
    have htype := (Progress.clean_absorb_iff.mp
      (hclean.of_grows (ctx.declareLocals_grows _ _ _ _ _))).2
    rw [statement_declare hh', statement_declare hh, demandType_embedded h htype]
    exact declareLocals_embedded h (within_of_knows (clean_demandType_iff.mp htype)) ds hc hclean
  | assign place value span =>
    rw [statement_assign hh] at hclean
    rw [statement_assign hh', statement_assign hh, assignment_embedded h hc hclean]
  | ifThen cond thenBranch span =>
    rw [statement_ifThen hh] at hclean
    have hcond := hclean.of_grows (ctx.nested_grows thenBranch _)
    rw [statement_ifThen hh', statement_ifThen hh, condition_embedded h hc hcond]
    exact nested_embedded h thenBranch (by rwa [condition_scope]) hclean
  | ifElse cond thenBranch elseBranch span =>
    rw [statement_ifElse hh] at hclean
    have hthen := hclean.of_grows (ctx.nested_grows elseBranch _)
    have hcond := hthen.of_grows (ctx.nested_grows thenBranch _)
    have hc' : ctx.Closed (ctx.condition cond (.ifElse cond thenBranch elseBranch span) p).scope := by
      rwa [condition_scope]
    rw [statement_ifElse hh', statement_ifElse hh, condition_embedded h hc hcond,
      nested_embedded h thenBranch hc' hthen]
    exact nested_embedded h elseBranch
      (hc'.of_env (Scope.env_eq_of_shape (ctx.nested_fills thenBranch _).shape)) hclean
  | loop id first last direction body span =>
    rw [statement_loop hh, Progress.clean_inScope_iff, Progress.clean_inScope_iff] at hclean
    have hhead := Progress.clean_inScope_iff.mp (hclean.of_grows (ctx.nested_grows body _))
    have hc' : ctx.Closed ((ctx.loopHead id first last (.loop id first last direction body span)
        p).inScope .enterLoop).scope := (hc.loopHead id first last _).of_env rfl
    rw [statement_loop hh', statement_loop hh, loopHead_embedded h hc hhead,
      nested_embedded h body hc' hclean]
  | breakLoop span => rw [statement_breakLoop hh', statement_breakLoop hh]
  | continueLoop span => rw [statement_continueLoop hh', statement_continueLoop hh]
  | returnValue value span =>
    rw [statement_returnValue hh] at hclean
    rw [statement_returnValue hh', statement_returnValue hh, returned_embedded h hc hclean]
  | call invocation span =>
    rw [statement_call hh, Progress.clean_absorb_iff] at hclean
    rw [statement_call hh', statement_call hh, exprType_embedded h hc invocation hclean.2]
  | block stmts span =>
    rw [statement_block hh] at hclean
    rw [statement_block hh', statement_block hh,
      statements_embedded h stmts (p := p.inScope .push) hc.push hclean]
termination_by (sizeOf s, 0)

private theorem nested_embedded {ctx ctx' : Context} (h : ctx.EmbedsIn ctx') (s : Stmt)
    {p : Progress} (hc : ctx.Closed p.scope) (hclean : (ctx.nested s p).Clean) :
    ctx'.nested s p = ctx.nested s p := by
  rw [nested, nested, statement_embedded h s (p := p.inScope .push) hc.push hclean]
termination_by (sizeOf s, 1)

/-- Statements in order take the same course if none of them breaks a rule. -/
theorem statements_embedded {ctx ctx' : Context} (h : ctx.EmbedsIn ctx') (ss : List Stmt)
    {p : Progress} (hc : ctx.Closed p.scope) (hclean : (ctx.statements ss p).Clean) :
    ctx'.statements ss p = ctx.statements ss p := by
  cases ss with
  | nil => rw [statements_nil, statements_nil]
  | cons s ss =>
    rw [statements_cons] at hclean
    have hs := hclean.of_grows (ctx.statements_grows ss _)
    rw [statements_cons, statements_cons, statement_embedded h s hc hs,
      statements_embedded h ss (hc.statement hs) hclean]
termination_by (sizeOf ss, 0)

end

section

variable {ctx ctx' : Context} (h : ctx.EmbedsIn ctx')

include h

/-- Initial values of attributes take the same course. -/
theorem attributeInits_embedded {decl : AttributeDecl} (ds : List Declarator) {p : Progress}
    (hc : ctx.Closed p.scope) (hclean : (ctx.attributeInits decl ds p).Clean) :
    ctx'.attributeInits decl ds p = ctx.attributeInits decl ds p := by
  induction ds generalizing p with
  | nil => rfl
  | cons d ds ih =>
    rw [attributeInits] at hclean
    rw [attributeInits, attributeInits]
    cases hinit : d.init with
    | none =>
      simp only [hinit] at hclean
      exact ih hc hclean
    | some init =>
      simp only [hinit] at hclean
      have hvalue := (Progress.clean_absorb_iff.mp
        (hclean.of_grows (ctx.attributeInits_grows decl ds _))).2
      dsimp only
      rw [initializer_embedded h hc hvalue]
      exact ih (p := p.absorb _) hc hclean

/-- Parameters are declared by the same course. -/
theorem declareParams_embedded (params : List Param) {p : Progress}
    (hclean : (ctx.declareParams params p).Clean) :
    ctx'.declareParams params p = ctx.declareParams params p := by
  induction params generalizing p with
  | nil => rfl
  | cons param params ih =>
    have hknows := ((clean_declareParams_iff (param :: params)).mp ⟨hclean, rfl⟩).2.1 param
      List.mem_cons_self
    rw [declareParams_cons] at hclean
    rw [declareParams_cons, declareParams_cons,
      demandType_embedded h (clean_demandType_iff.mpr hknows), ih hclean]

private theorem body_embedded {params : List Param} {b : Block} {p : Progress}
    (hc : ctx.Closed p.scope) (hclean : (ctx.body params b p).Clean) :
    ctx'.body params b p = ctx.body params b p := by
  have hparams : (ctx.declareParams params (p.inScope .push)).Clean :=
    Progress.Clean.of_grows hclean (ctx.statements_grows b.stmts _)
  rw [body, body, declareParams_embedded h params hparams,
    statements_embedded h b.stmts (Closed.declareParams (p := p.inScope .push) hc.push hparams)
      hclean]

end

/-- Contexts embedded in each other stay so inside of a member. -/
theorem EmbedsIn.inMember {ctx ctx' : Context} (h : ctx.EmbedsIn ctx') (m : Member) :
    (ctx.inMember m).EmbedsIn (ctx'.inMember m) := by
  cases m <;> exact ⟨h.walk, h.classes, h.io, h.className, rfl, rfl, rfl⟩

/-- A member without a violation is checked alike among more classes. -/
theorem member_embedded {ctx ctx' : Context} (h : ctx.EmbedsIn ctx') {m : Member} {p : Progress}
    (hc : ctx.Closed p.scope) (hclean : (ctx.member m p).Clean) :
    ctx'.member m p = ctx.member m p := by
  have hctx := h.inMember m
  have hclosed : (ctx.inMember m).Closed p.scope := by
    refine ⟨?_, ?_, ?_⟩
    · rw [inMember_table, inMember_className]
      exact hc.current
    · rw [inMember_table]
      exact hc.table
    · rw [inMember_table]
      exact hc.scope
  rcases m with ⟨decl, span⟩ | ⟨⟨isStatic, _ | type, name, params, b⟩, span⟩ | ⟨decl, span⟩ |
    ⟨decl, span⟩
  · have htype := (Progress.clean_absorb_iff.mp
      (hclean.of_grows (attributeInits_grows _ decl decl.declarators _))).2
    rw [member, member, demandType_embedded hctx htype]
    exact attributeInits_embedded hctx _ hclosed hclean
  · exact body_embedded hctx hclosed hclean
  · have htype := (Progress.clean_absorb_iff.mp (hclean.of_grows (body_grows _ params b _))).2
    rw [member, member]
    dsimp only
    rw [demandType_embedded h htype]
    exact body_embedded hctx hclosed hclean
  · rw [member, member]
    refine (congrArg _ (by rw [h.className])).trans (body_embedded hctx ?_ hclean)
    rwa [Progress.demand_scope]
  · rw [member, member]
    refine (congrArg _ (by rw [h.className])).trans (body_embedded hctx ?_ hclean)
    rwa [Progress.demand_scope]

end Context

/-! ## Programs -/

namespace Program

variable {before after : List ClassDecl} {c : ClassDecl} {span span' : Span}

/-- A new class leaves the others as they are declared. -/
theorem declared_insert {name : String} (hname : c.name.name ≠ name) :
    declared ⟨before ++ c :: after, span'⟩ name = declared ⟨before ++ after, span⟩ name := by
  unfold declared
  rw [List.find?_append, List.find?_append, List.find?_cons_of_neg (by simpa using hname)]

/-- The classes of a program embed in those of the program with one more. -/
theorem declared_embedsIn {t t' : ClassTable}
    (hb : ClassTable.build ⟨before ++ after, span⟩ = .ok t)
    (hb' : ClassTable.build ⟨before ++ c :: after, span'⟩ = .ok t') :
    t.classes.EmbedsIn t'.classes := by
  obtain ⟨hnodup, -⟩ := ClassTable.exists_build_iff.mp ⟨t', hb'⟩
  have hfresh : declared ⟨before ++ after, span⟩ c.name.name = none := by
    rw [← Option.not_isSome_iff_eq_none, isSome_declared_iff]
    simp only [List.map_append, List.map_cons, List.nodup_cons, List.nodup_middle] at hnodup
    rintro (hio | ⟨d, hd, hname⟩)
    · exact hnodup.1 (by simp [hio])
    · exact hnodup.2.1 (by simpa [hname] using List.mem_map_of_mem (f := fun e => e.name.name) hd)
  constructor
  · intro name v hv
    rw [ClassTable.classes_of_build hb] at hv
    have hne : c.name.name ≠ name := by
      rintro rfl
      rw [hfresh] at hv
      cases hv
    rw [ClassTable.classes_of_build hb', declared_insert hne, hv]
  · intro name v d hv hparent
    rw [ClassTable.isSome_classes]
    exact ClassTable.contains_of_parent? hb ((t.extends_iff name d).mp ⟨v, hv, hparent⟩)

end Program

private theorem Event.violations_prefix {as bs : List Event} (h : as <+: bs) :
    violations as <+: violations bs := h.filterMap _

namespace ClassTable

/-- At the start of a class all classes that are named are declared if those in the table are. -/
theorem closed_start {t : ClassTable} (ht : t.classes.Within fun c => t.contains c = true)
    (hio : t.contains ioClass = true) {className : String} (hc : t.contains className = true) :
    (Context.ofClass .exhaustive t className).Closed Progress.start.scope :=
  ⟨hc, ht, Env.within_globalEnv hio⟩

/-- A member without a violation has none among more classes. -/
theorem memberViolations_embedded {t t' : ClassTable} (h : t.classes.EmbedsIn t'.classes)
    (ht : t.classes.Within fun c => t.contains c = true) (hio : t.contains ioClass = true)
    {className : String} (hc : t.contains className = true) {m : Member}
    (hclean : t.memberViolations className m = []) : t'.memberViolations className m = [] := by
  have hctx : (Context.ofClass .exhaustive t className).EmbedsIn
      (Context.ofClass .exhaustive t' className) := ⟨rfl, h, hio, rfl, rfl, rfl, rfl⟩
  have hmember := Context.member_embedded hctx (closed_start ht hio hc) hclean
  rw [memberViolations, hmember]
  exact hclean

/-- A class whose members have no violations adds none, however far the traversal goes. -/
theorem checkClass_adds_none {t : ClassTable} {c : ClassDecl} (h : t.classViolations c = [])
    (walk : Walk) {p : Progress} (hp : p.scope = .global) :
    Event.violations (t.checkClass walk c p).events = Event.violations p.events := by
  have hall : Event.violations (t.checkClass .exhaustive c p).events =
      Event.violations p.events := by
    rw [(t.checkClass_violations c hp).2, h, List.append_nil]
  cases walk with
  | exhaustive => exact hall
  | untilSettled =>
    have hkeeps := Context.members_keepsUp (.ofClass .untilSettled t c.name.name) rfl c.members
      (.refl (p.note (.enterClass c.name.name)))
    have hle : Event.violations (t.checkClass .untilSettled c p).events <+:
        Event.violations (t.checkClass .exhaustive c p).events :=
      Event.violations_prefix hkeeps.events
    rw [hall] at hle
    exact hle.eq_of_length_le
      (Event.violations_prefix (t.checkClass_grows .untilSettled c p)).length_le

end ClassTable

namespace Program

variable {before after : List ClassDecl} {c : ClassDecl} {span span' : Span}

/-- A program that passes has a class table. -/
theorem exists_build_of_check {p : Program} (hok : p.check = .ok ()) :
    ∃ t, ClassTable.build p = .ok t := by
  cases hb : ClassTable.build p with
  | error v =>
    rw [check_of_build_error hb] at hok
    cases hok
  | ok t => exact ⟨t, rfl⟩

/-- The members of a program that passes have no violations after a class is added. -/
theorem classViolations_of_new_class {t' : ClassTable}
    (hok : check ⟨before ++ after, span⟩ = .ok ())
    (hb' : ClassTable.build ⟨before ++ c :: after, span'⟩ = .ok t') :
    ∀ d ∈ before ++ after, t'.classViolations d = [] := by
  obtain ⟨t, hb⟩ := exists_build_of_check hok
  rw [check_of_build_ok hb, ClassTable.answer_eq_ok_iff] at hok
  obtain ⟨hclean, -⟩ := hok
  have ht := ClassTable.classes_within_accounts hb
  rw [ClassTable.accounts_eq_contains hclean] at ht
  rw [ClassTable.traverse_violations, List.flatMap_eq_nil_iff] at hclean
  intro d hd
  have hmembers := hclean d hd
  rw [ClassTable.classViolations, List.flatMap_eq_nil_iff] at hmembers ⊢
  intro m hm
  exact ClassTable.memberViolations_embedded (declared_embedsIn hb hb') ht
    (ClassTable.contains_ioClass hb) (ClassTable.contains_of_build hb hd) (hmembers m hm)

/-- A program that can start can do so after a class is added. -/
theorem hasEntryPoint_of_new_class {t' : ClassTable}
    (hok : check ⟨before ++ after, span⟩ = .ok ())
    (hb' : ClassTable.build ⟨before ++ c :: after, span'⟩ = .ok t') : t'.hasEntryPoint = true := by
  obtain ⟨t, hb⟩ := exists_build_of_check hok
  rw [check_of_build_ok hb, ClassTable.answer_eq_ok_iff, ClassTable.hasEntryPoint_of_build hb,
    List.any_eq_true] at hok
  obtain ⟨-, d, hd, hentry⟩ := hok
  rw [ClassTable.hasEntryPoint_of_build hb', List.any_eq_true]
  exact ⟨d, List.mem_append.mpr ((List.mem_append.mp hd).imp_right (List.mem_cons_of_mem c)),
    hentry⟩

/-- Adding a class to a program that passes, at any place and so that the table can still be
built, breaks nothing: no violation comes up in the other classes, all that come up are in members
of the new class, and so is the one that is reported, if any. -/
theorem check_of_new_class {t' : ClassTable} (hok : check ⟨before ++ after, span⟩ = .ok ())
    (hb' : ClassTable.build ⟨before ++ c :: after, span'⟩ = .ok t') :
    (∀ d ∈ before ++ after, ∀ (walk : Walk) (p : Progress), p.scope = .global →
      Event.violations (t'.checkClass walk d p).events = Event.violations p.events) ∧
    (∀ walk, Event.violations (t'.traverse walk ⟨before ++ c :: after, span'⟩) <+:
      c.members.flatMap (t'.memberViolations c.name.name)) ∧
    (check ⟨before ++ c :: after, span'⟩ = .ok () ∨
      ∃ m ∈ c.members, ∃ v ∈ t'.memberViolations c.name.name m,
        check ⟨before ++ c :: after, span'⟩ = .error v) := by
  have hnone := classViolations_of_new_class hok hb'
  have hexhaustive : Event.violations (t'.traverse .exhaustive ⟨before ++ c :: after, span'⟩) =
      t'.classViolations c := by
    rw [List.forall_mem_append] at hnone
    rw [ClassTable.traverse_violations, List.flatMap_append, List.flatMap_cons,
      List.flatMap_eq_nil_iff.mpr hnone.1, List.flatMap_eq_nil_iff.mpr hnone.2,
      List.nil_append, List.append_nil]
  refine ⟨fun d hd walk p => ClassTable.checkClass_adds_none (hnone d hd) walk, ?_, ?_⟩
  · intro walk
    rw [← ClassTable.classViolations, ← hexhaustive]
    cases walk with
    | exhaustive => exact List.prefix_refl _
    | untilSettled =>
      exact Event.violations_prefix (t'.checkClasses_keepsUp _ (.refl .start)).events
  · rw [check_of_build_ok hb', hexhaustive]
    by_cases hclass : t'.classViolations c = []
    · exact Or.inl ((t'.answer_eq_ok_iff _).mpr ⟨hclass, hasEntryPoint_of_new_class hok hb'⟩)
    · obtain ⟨v, hv, hanswer⟩ := t'.exists_answer_eq_error hclass
      obtain ⟨m, hm, hv⟩ := List.mem_flatMap.mp hv
      exact Or.inr ⟨m, hm, v, hv, hanswer⟩

/-- A class whose only method has a local name `crate` and makes an object of the next class. -/
def storeClass : ClassDecl :=
  ⟨⟨"Store", ⟨0, 0⟩⟩, none, [.method ⟨true, none, mainName, [], ⟨[
    .declare false (.primitive .int ⟨0, 0⟩) [⟨"crate", some (.int 1 ⟨0, 0⟩), ⟨0, 0⟩⟩] ⟨0, 0⟩,
    .declare false (.named "Box" ⟨0, 0⟩) [⟨"box", some (.create "Box" [] ⟨0, 0⟩), ⟨0, 0⟩⟩] ⟨0, 0⟩,
    .assign (.field (.ident "box" ⟨0, 0⟩) "size" ⟨0, 0⟩) (.ident "crate" ⟨0, 0⟩) ⟨0, 0⟩],
    ⟨0, 0⟩⟩⟩ ⟨0, 0⟩], ⟨0, 0⟩⟩

/-- A class with an attribute. -/
def boxClass : ClassDecl :=
  ⟨⟨"Box", ⟨0, 0⟩⟩, none, [.attribute ⟨false, false, .primitive .int ⟨0, 0⟩,
    [⟨"size", none, ⟨0, 0⟩⟩]⟩ ⟨0, 0⟩], ⟨0, 0⟩⟩

/-- A class of the name `crate` with a method of the wrong result. -/
def crateClass : ClassDecl :=
  ⟨⟨"crate", ⟨0, 0⟩⟩, some ⟨"Box", ⟨0, 0⟩⟩, [.method ⟨false, some (.primitive .int ⟨0, 0⟩), "size",
    [], ⟨[.returnValue (some (.bool true ⟨0, 0⟩)) ⟨0, 0⟩], ⟨0, 0⟩⟩⟩ ⟨0, 0⟩], ⟨0, 0⟩⟩

/-- The table of the three classes. -/
def crateTable : ClassTable where
  entries := [ClassTable.ioEntry,
    ⟨"Store", none, [(mainName, ⟨some (.method ⟨none, [], true⟩), none, false⟩)]⟩,
    ⟨"crate", some "Box", [("size", ⟨some (.method ⟨some .int, [], false⟩), none, false⟩)]⟩,
    ⟨"Box", none, [("size", ⟨some (.attribute ⟨.int, false, false, false⟩), none, false⟩)]⟩]
  hasEntryPoint := true

/-- The new class takes the name of a local name, and what is reported is inside of it. -/
theorem crate_breaks_alone : check ⟨[storeClass] ++ [boxClass], ⟨0, 0⟩⟩ = .ok () ∧
    ClassTable.build ⟨[storeClass] ++ crateClass :: [boxClass], ⟨0, 0⟩⟩ = .ok crateTable ∧
    ∃ m ∈ crateClass.members, ∃ v ∈ crateTable.memberViolations "crate" m,
      check ⟨[storeClass] ++ crateClass :: [boxClass], ⟨0, 0⟩⟩ = .error v := by
  have hok : check ⟨[storeClass] ++ [boxClass], ⟨0, 0⟩⟩ = .ok () := by decide +kernel
  have hbuilt : ClassTable.build ⟨[storeClass] ++ crateClass :: [boxClass], ⟨0, 0⟩⟩ =
      .ok crateTable := by decide +kernel
  have hfails : check ⟨[storeClass] ++ crateClass :: [boxClass], ⟨0, 0⟩⟩ ≠ .ok () := by
    decide +kernel
  exact ⟨hok, hbuilt, (check_of_new_class hok hbuilt).2.2.resolve_left hfails⟩

end Program

end ClassCheck
