import ClassCheck.Proofs.NamedClasses

/-!
# The check of expressions decides their typing

An expression is checked without a violation and to a known type exactly if it has that type in
the typing relation. From left to right, the check of each form of expression yields what its
rule asks for, provided that every class named in a type around the expression is declared:
otherwise a member of an object of that class would be passed over in silence. From right to
left nothing need be assumed.
-/

namespace ClassCheck

namespace ExprTy

/-- Of the plain types that are known only integers admit one. -/
theorem admitsInt_iff {τ : ExprTy} (hp : τ.IsPlain) (hu : τ ≠ .unknown) :
    τ.admitsInt = true ↔ τ = .known .int := by
  cases τ with
  | known T => exact (Ty.isInt_iff hp).trans ⟨congrArg known, known.inj⟩
  | unknown => exact absurd rfl hu
  | _ => simp [admitsInt]

/-- Only truth values admit one. -/
theorem admitsBoolean_iff {τ : ExprTy} (hp : τ.IsPlain) (hu : τ ≠ .unknown) :
    τ.admitsBoolean = true ↔ τ = .known .boolean := by
  cases τ with
  | known T => exact (Ty.isBoolean_iff hp).trans ⟨congrArg known, known.inj⟩
  | unknown => exact absurd rfl hu
  | _ => simp [admitsBoolean]

end ExprTy

/-- The computed element type of an array literal is the one its elements share. -/
theorem elementType?_eq_some_iff {types : List ExprTy} (hp : ∀ τ ∈ types, τ.IsPlain) {T : Ty} :
    elementType? types = some T ↔ T.SharedBy types := by
  unfold elementType?
  split
  · rename_i hnone
    refine ⟨fun h => (by cases h), fun h => ?_⟩
    have hmem := Context.mem_filterMap_known?_iff.mpr h.1
    rw [hnone] at hmem
    cases hmem
  · rename_i first rest hsome
    have hknown : ∀ T', .known T' ∈ types ↔ T' = first ∨ T' ∈ rest := by
      intro T'
      rw [← Context.mem_filterMap_known?_iff, hsome, List.mem_cons]
    have hfirst : .known first ∈ types := (hknown first).mpr (Or.inl rfl)
    constructor
    · intro h
      split at h
      · rename_i hall
        cases h
        rw [Bool.and_eq_true, Bool.and_eq_true, List.all_eq_true, List.all_eq_true,
          Bool.or_eq_true] at hall
        obtain ⟨⟨hform, hsame⟩, hnull⟩ := hall
        refine ⟨hfirst, ?_⟩
        intro τ hτ
        cases τ with
        | nil =>
          refine Or.inr ⟨rfl, ?_⟩
          rcases hnull with hn | hn
          · exact (Ty.isNullable_iff T).mp hn
          · simp [hτ] at hn
        | known T' =>
          rcases (hknown T').mp hτ with rfl | hrest
          · exact Or.inl rfl
          · rw [(Ty.same_iff (hp _ hfirst) (hp _ hτ)).mp (hsame T' hrest)]
            exact Or.inl rfl
        | _ => simpa [ExprTy.known?] using hform _ hτ
      · cases h
    · rintro ⟨hT, hall⟩
      have heq : ∀ T', .known T' ∈ types → T' = T := by
        intro T' hT'
        rcases hall _ hT' with h | ⟨h, -⟩
        · exact ExprTy.known.inj h
        · cases h
      obtain rfl := heq first hfirst
      rw [if_pos]
      rw [Bool.and_eq_true, Bool.and_eq_true, List.all_eq_true, List.all_eq_true,
        Bool.or_eq_true]
      refine ⟨⟨?_, ?_⟩, ?_⟩
      · intro τ hτ
        rcases hall τ hτ with rfl | ⟨rfl, -⟩
        · rfl
        · rfl
      · intro T' hT'
        rw [heq T' ((hknown T').mpr (Or.inr hT')), Ty.same, decide_eq_true_iff]
      · by_cases hnil : .nil ∈ types
        · rcases hall _ hnil with h | ⟨-, hn⟩
          · cases h
          · exact Or.inl ((Ty.isNullable_iff first).mpr hn)
        · right
          simpa using hnil

namespace Context

open Checked

/-- What is fixed for the typing of expressions in a context. -/
def setting (ctx : Context) : Setting :=
  ⟨ctx.table.classes, ctx.className, ctx.isStatic, ctx.inCtor, ctx.result⟩

/-- The current class and every class named in the types of the class table and of the local
names are declared. -/
structure Closed (ctx : Context) (scope : Scope) : Prop where
  /-- The current class is declared. -/
  current : ctx.table.contains ctx.className = true
  /-- The classes named in the class table are declared. -/
  table : ctx.table.classes.Within fun c => ctx.table.contains c = true
  /-- The classes named in the types of local names are declared. -/
  scope : scope.env.Within fun c => ctx.table.contains c = true

/-- In a closed state all classes that are named are declared. -/
theorem Closed.within {ctx : Context} {scope : Scope} (h : ctx.Closed scope) :
    ctx.Within fun c => ctx.table.contains c = true := ⟨fun _ hc => hc, h.table, h.current⟩

/-! ## Members behind a dot -/

section

variable {ctx : Context} {access : Expr} {name : String} {τ : ExprTy}

/-- A class that declares or inherits something is in the table. -/
theorem contains_of_nearest {α : Type} {own : ClassView → Option α} {c owner : String} {a : α}
    (h : ctx.table.classes.Nearest own c owner a) : ctx.table.contains c = true := by
  rw [← ClassTable.isSome_classes]
  exact h.isSome

/-- An object of a declared class is a receiver. -/
theorem receiver?_of_denotes {c : String} {viaClass : Bool} (hd : τ.Denotes c viaClass)
    (hc : ctx.table.contains c = true) :
    ctx.receiver? access τ = pure (some ⟨c, viaClass⟩) := by
  cases hd with
  | ofClass => rfl
  | ofObject => rw [receiver?, hc, if_pos rfl]

/-- An attribute of the class that an object or class denotes is found. -/
theorem attribute?_of_denotes {c owner : String} {info : AttributeInfo}
    (hd : τ.Denotes c info.isStatic) (ha : ctx.table.classes.HasAttribute c name owner info) :
    (ctx.attribute? access name τ).Yields (some (owner, info)) := by
  have hfound := (ctx.table.findAttribute?_eq_some_iff c name owner info).mpr ha
  rw [attribute?, receiver?_of_denotes hd (contains_of_nearest ha), yields_bind_iff]
  refine ⟨_, yields_pure_iff.mpr rfl, ?_⟩
  simp [hfound]

/-- So is a method. -/
theorem method?_of_denotes {c owner : String} {signature : Signature}
    (hd : τ.Denotes c signature.isStatic)
    (hm : ctx.table.classes.HasMethod c name owner signature) :
    (ctx.method? access name τ).Yields (some signature) := by
  have hfound := (ctx.table.findMethod?_eq_some_iff c name owner signature).mpr hm
  rw [method?, receiver?_of_denotes hd (contains_of_nearest hm), yields_bind_iff]
  refine ⟨_, yields_pure_iff.mpr rfl, ?_⟩
  simp [hfound]

variable (hu : τ ≠ .unknown) (hw : τ.Within fun c => ctx.table.contains c = true)

include hu hw

/-- Before a dot stands a class or an object of a declared class, or else a violation is
reported. -/
theorem denotes_of_receiver? {r : Option Receiver} (h : (ctx.receiver? access τ).Yields r) :
    ∃ c viaClass, r = some ⟨c, viaClass⟩ ∧ τ.Denotes c viaClass := by
  unfold receiver? at h
  split at h
  · obtain rfl := yields_pure_iff.mp h
    exact ⟨_, _, rfl, .ofClass⟩
  · rename_i c
    have hc : ctx.table.contains c = true := hw (.object c) rfl c rfl
    rw [hc, if_pos rfl] at h
    obtain rfl := yields_pure_iff.mp h
    exact ⟨_, _, rfl, .ofObject⟩
  · exact absurd rfl hu
  · simp at h

/-- An attribute is found only if the class that is denoted has it. -/
theorem denotes_of_attribute? {found : Option (String × AttributeInfo)}
    (h : (ctx.attribute? access name τ).Yields found) :
    ∃ c owner info, found = some (owner, info) ∧ τ.Denotes c info.isStatic ∧
      ctx.table.classes.HasAttribute c name owner info := by
  rw [attribute?, yields_bind_iff] at h
  obtain ⟨r, hr, h⟩ := h
  obtain ⟨c, viaClass, rfl, hd⟩ := denotes_of_receiver? hu hw hr
  dsimp only at h
  split at h
  · simp at h
  · rename_i owner info hfound
    split at h
    · rename_i hstatic
      obtain rfl := yields_pure_iff.mp h
      exact ⟨c, owner, info, rfl, hstatic ▸ hd,
        (ctx.table.findAttribute?_eq_some_iff c name owner info).mp hfound⟩
    · simp at h

/-- A method is found only if the class that is denoted has it. -/
theorem denotes_of_method? {found : Option Signature}
    (h : (ctx.method? access name τ).Yields found) :
    ∃ c owner signature, found = some signature ∧ τ.Denotes c signature.isStatic ∧
      ctx.table.classes.HasMethod c name owner signature := by
  rw [method?, yields_bind_iff] at h
  obtain ⟨r, hr, h⟩ := h
  obtain ⟨c, viaClass, rfl, hd⟩ := denotes_of_receiver? hu hw hr
  dsimp only at h
  split at h
  · simp at h
  · rename_i owner signature hfound
    split at h
    · rename_i hstatic
      obtain rfl := yields_pure_iff.mp h
      exact ⟨c, owner, signature, rfl, hstatic ▸ hd,
        (ctx.table.findMethod?_eq_some_iff c name owner signature).mp hfound⟩
    · simp at h

end

/-! ## What each form of expression yields -/

section

variable {ctx : Context} {e : Expr} {τ : ExprTy}

private theorem yields_selfType_iff :
    (ctx.selfType e).Yields τ ↔ ctx.isStatic = false ∧ τ = .known (.object ctx.className) := by
  unfold selfType
  cases ctx.isStatic <;> simp [eq_comm]

/-- Reading a local name yields its type, or the built-in class. -/
theorem yields_readLocal_iff {b : Binding} :
    (readLocal b).Yields τ ↔
      τ = if b.kind = .facility then .classRef ioClass else .value b.type := by
  rw [← readLocal_value, Yields, and_iff_right, eq_comm]
  unfold readLocal
  cases b.initialized <;> cases b.kind <;> rfl

/-- That a class is declared is yielded just if it is. -/
theorem yields_demandClass_iff {c : String} {u : Unit} :
    (ctx.demandClass c e).Yields u ↔ ctx.table.contains c = true := by
  unfold demandClass
  split <;> simp_all

/-- An element is yielded just if the object is an array and the position an integer. -/
theorem yields_elementResult_iff {object position : ExprTy} (ho : object ≠ .unknown)
    (hp : position.IsPlain) (hu : position ≠ .unknown) :
    (elementResult e object position).Yields τ ↔
      ∃ element size, object = .known (.array element size) ∧ position = .known .int ∧
        τ = .value element := by
  unfold elementResult
  rw [yields_orMismatch_iff, ← ExprTy.admitsInt_iff hp hu]
  cases position.admitsInt with
  | false => simp
  | true =>
    rw [if_pos rfl]
    split
    · simp [eq_comm]
    · exact absurd rfl ho
    · rename_i hno _
      constructor
      · intro h
        cases h
      · rintro ⟨element, size, rfl, -⟩
        exact absurd rfl (hno element size)

section

variable {types : List ExprTy} (hp : ∀ τ ∈ types, τ.IsPlain) (hu : ∀ τ ∈ types, τ ≠ .unknown)

include hp hu

/-- A call yields the result of the method just if the arguments fit. -/
theorem yields_callResult_iff {signature : Signature} :
    (ctx.callResult e (some signature) types).Yields τ ↔
      ctx.table.classes.FitAll signature.params types ∧ τ = signature.yields := by
  rw [← ctx.table.argumentsFit_iff signature.params hp hu, Signature.yields, callResult]
  cases ctx.table.argumentsFit signature.params types <;> cases signature.result <;>
    simp [eq_comm]

/-- A creation yields an object just if the arguments fit the constructor. -/
theorem yields_createResult_iff {c : String} {entry : ClassEntry}
    (hc : ctx.table.get? c = some entry) :
    (ctx.createResult e c types).Yields τ ↔
      ctx.table.classes.FitAll entry.view.ctorParams types ∧ τ = .known (.object c) := by
  have hcontains : ctx.table.contains c = true := by rw [ClassTable.contains, hc]; rfl
  have hparams : ((ctx.table.ctor? c).map Signature.params).getD [] = entry.view.ctorParams := by
    rw [ClassTable.ctor?, hc, ClassView.ctorParams, ClassEntry.view, ClassTable.name_of_get? hc]
    rfl
  rw [← ctx.table.argumentsFit_iff _ hp hu, createResult, if_pos hcontains, hparams]
  dsimp only
  split
  · rename_i hfit
    rw [yields_pure_iff, and_iff_right hfit, eq_comm]
  · rename_i hfit
    exact ⟨fun h => absurd h not_yields_poison, fun h => absurd h.1 hfit⟩

/-- An array literal yields an array just if its elements share a type. -/
theorem yields_arrayResult_iff :
    (arrayResult e types).Yields τ ↔
      ∃ T, T.SharedBy types ∧ τ = .known (.array T types.length) := by
  have hknown : types.any ExprTy.isUnknown = false := by
    rw [List.any_eq_false]
    intro τ hτ
    have hne := hu τ hτ
    cases τ with
    | unknown => exact absurd rfl hne
    | _ => simp [ExprTy.isUnknown]
  unfold arrayResult
  rw [hknown, if_neg Bool.false_ne_true]
  split
  · rename_i T hT
    have hshared := (elementType?_eq_some_iff hp).mp hT
    rw [yields_pure_iff]
    constructor
    · rintro rfl
      exact ⟨T, hshared, rfl⟩
    · rintro ⟨T', hT', rfl⟩
      rw [hshared.unique hT']
  · rename_i hnone
    constructor
    · intro h
      exact absurd h not_yields_poison
    · rintro ⟨T, hT, -⟩
      rw [(elementType?_eq_some_iff hp).mpr hT] at hnone
      cases hnone

end

end

/-! ## Expressions -/

section

variable {ctx : Context} {scope : Scope}

/-- A name that is checked without a violation has the type that the check yields. -/
theorem hasType_of_identType {name : String} {span : Span} {e : Expr} {τ : ExprTy}
    (h : (ctx.identType scope name e).Yields τ) :
    HasType ctx.setting scope.env (.ident name span) τ := by
  have henv := scope.lookup?_env name
  unfold identType at h
  split at h
  · rename_i b hb
    have hl : scope.env.lookup? name = some b.toLocal := by rw [henv, hb]; rfl
    obtain rfl := yields_readLocal_iff.mp h
    split
    · rename_i hk
      exact .facility hl hk
    · rename_i hk
      exact .localName hl hk
  · rename_i hb
    have hl : scope.env.lookup? name = none := by rw [henv, hb]; rfl
    split at h
    · rename_i hfound
      obtain rfl := yields_pure_iff.mp h
      exact .attributeName hl ((ctx.table.findAttribute?_eq_some_iff _ _ _ _).mp hfound)
    · rename_i hnone
      split at h
      · rename_i hc
        obtain rfl := yields_pure_iff.mp h
        exact .className hl ((ctx.table.findAttribute?_eq_none_iff _ _).mp hnone)
          ((ctx.table.isSome_classes name).trans hc)
      · simp at h

/-- A name that has a type is checked to it without a violation. -/
theorem identType_of_hasType {name : String} {span : Span} {e : Expr} {τ : ExprTy}
    (h : HasType ctx.setting scope.env (.ident name span) τ) :
    (ctx.identType scope name e).Yields τ := by
  have henv := scope.lookup?_env name
  unfold identType
  cases h with
  | localName hl hk =>
    obtain ⟨b, hb, rfl⟩ := Option.map_eq_some_iff.mp (henv.symm.trans hl)
    rw [hb]
    exact yields_readLocal_iff.mpr (if_neg hk).symm
  | facility hl hk =>
    obtain ⟨b, hb, rfl⟩ := Option.map_eq_some_iff.mp (henv.symm.trans hl)
    rw [hb]
    exact yields_readLocal_iff.mpr (if_pos hk).symm
  | attributeName hl ha =>
    have hb := Option.map_eq_none_iff.mp (henv.symm.trans hl)
    have hfound := (ctx.table.findAttribute?_eq_some_iff _ _ _ _).mpr ha
    simp only [setting] at hfound
    simp [hb, hfound]
  | className hl hno hc =>
    have hb := Option.map_eq_none_iff.mp (henv.symm.trans hl)
    have hnone := (ctx.table.findAttribute?_eq_none_iff _ _).mpr hno
    have hcontains := (ctx.table.isSome_classes name).symm.trans hc
    simp only [setting] at hnone
    simp [hb, hnone, hcontains]

/-- The type that a check yields names only declared classes. -/
theorem within_of_yields (hc : ctx.Closed scope) {e : Expr} {τ : ExprTy}
    (h : (ctx.exprType scope e).Yields τ) : τ.Within fun c => ctx.table.contains c = true := by
  have hwithin := exprType_within hc.within hc.scope e
  rwa [h.2] at hwithin

mutual

/-- An expression checked without a violation has the type that the check yields. -/
theorem hasType_of_yields (hc : ctx.Closed scope) (e : Expr) {τ : ExprTy}
    (h : (ctx.exprType scope e).Yields τ) : HasType ctx.setting scope.env e τ := by
  cases e with
  | int value span =>
    obtain rfl := yields_pure_iff.mp h
    exact .int
  | float value span =>
    obtain rfl := yields_pure_iff.mp h
    exact .float
  | bool value span =>
    obtain rfl := yields_pure_iff.mp h
    exact .bool
  | string value span =>
    obtain rfl := yields_pure_iff.mp h
    exact .string
  | nil span =>
    obtain rfl := yields_pure_iff.mp h
    exact .nil
  | self span =>
    obtain ⟨hs, rfl⟩ := yields_selfType_iff.mp h
    exact .self hs
  | ident name span => exact hasType_of_identType h
  | paren inner span =>
    rw [exprType] at h
    exact .paren (hasType_of_yields hc inner h)
  | binary op left right span =>
    simp only [exprType, yields_bind_iff, yields_demandValue_iff, yields_orMismatch_iff] at h
    obtain ⟨a, ⟨ha, -⟩, b, ⟨hb, -⟩, hop⟩ := h
    have hleft := hasType_of_yields hc left ha
    have hright := hasType_of_yields hc right hb
    obtain ⟨T, rfl, ht⟩ := (ExprTy.binary?_eq_some_iff hleft.isPlain hright.isPlain
      hleft.ne_unknown hright.ne_unknown).mp hop
    exact .binary hleft hright ht
  | unary op operand span =>
    simp only [exprType, yields_bind_iff, yields_demandValue_iff, yields_orMismatch_iff] at h
    obtain ⟨a, ⟨ha, -⟩, hop⟩ := h
    have hoperand := hasType_of_yields hc operand ha
    obtain ⟨T, rfl, rfl, ht⟩ :=
      (ExprTy.unary?_eq_some_iff hoperand.isPlain hoperand.ne_unknown).mp hop
    exact .unary hoperand ht
  | index object position span =>
    simp only [exprType, yields_bind_iff, yields_demandValue_iff] at h
    obtain ⟨a, ⟨ha, -⟩, i, ⟨hi, -⟩, h⟩ := h
    have hobject := hasType_of_yields hc object ha
    have hposition := hasType_of_yields hc position hi
    obtain ⟨element, size, rfl, rfl, rfl⟩ := (yields_elementResult_iff hobject.ne_unknown
      hposition.isPlain hposition.ne_unknown).mp h
    exact .index hobject hposition
  | field object name span =>
    simp only [exprType, yields_bind_iff, yields_demandValue_iff] at h
    obtain ⟨a, ⟨ha, -⟩, found, hf, h⟩ := h
    have hobject := hasType_of_yields hc object ha
    -- The class of the object is declared, so it was not passed over in silence.
    obtain ⟨c, owner, info, rfl, hd, hattr⟩ :=
      denotes_of_attribute? hobject.ne_unknown (within_of_yields hc ha) hf
    obtain rfl := yields_pure_iff.mp h
    exact .field hobject hd hattr rfl
  | call receiver method args span =>
    simp only [exprType, yields_bind_iff, yields_demandValue_iff] at h
    obtain ⟨a, ⟨ha, -⟩, found, hf, types, ht, h⟩ := h
    have hreceiver := hasType_of_yields hc receiver ha
    obtain ⟨c, owner, signature, rfl, hd, hm⟩ :=
      denotes_of_method? hreceiver.ne_unknown (within_of_yields hc ha) hf
    have hargs := haveTypes_of_yields hc args ht
    obtain ⟨hfit, rfl⟩ := (yields_callResult_iff hargs.isPlain hargs.ne_unknown).mp h
    exact .call hreceiver hd hm rfl hargs hfit
  | create c args span =>
    simp only [exprType, yields_bind_iff] at h
    obtain ⟨u, hdemand, types, ht, h⟩ := h
    obtain ⟨entry, hentry⟩ := Option.isSome_iff_exists.mp (yields_demandClass_iff.mp hdemand)
    have hargs := haveTypes_of_yields hc args ht
    obtain ⟨hfit, rfl⟩ :=
      (yields_createResult_iff hargs.isPlain hargs.ne_unknown hentry).mp h
    exact .create (ClassTable.classes_of_get? hentry) hargs hfit
  | array elements span =>
    simp only [exprType, yields_bind_iff] at h
    obtain ⟨types, ht, h⟩ := h
    have helements := haveTypes_of_yields hc elements ht
    obtain ⟨T, hT, rfl⟩ := (yields_arrayResult_iff helements.isPlain helements.ne_unknown).mp h
    rw [helements.length_eq]
    exact .array helements hT

private theorem haveTypes_of_yields (hc : ctx.Closed scope) (es : List Expr) {τs : List ExprTy}
    (h : (ctx.valueTypes scope es).Yields τs) : HaveTypes ctx.setting scope.env es τs := by
  cases es with
  | nil =>
    obtain rfl := yields_pure_iff.mp h
    exact .nil
  | cons e es =>
    simp only [valueTypes, yields_bind_iff, yields_demandValue_iff, yields_pure_iff] at h
    obtain ⟨τ, ⟨he, hv⟩, rest, hrest, rfl⟩ := h
    exact .cons (hasType_of_yields hc e he) hv (haveTypes_of_yields hc es hrest)

end

mutual

/-- An expression that has a type is checked without a violation, and the check yields it. -/
theorem yields_of_hasType (e : Expr) {τ : ExprTy}
    (h : HasType ctx.setting scope.env e τ) : (ctx.exprType scope e).Yields τ := by
  cases e with
  | int value span => cases h; exact yields_pure_iff.mpr rfl
  | float value span => cases h; exact yields_pure_iff.mpr rfl
  | bool value span => cases h; exact yields_pure_iff.mpr rfl
  | string value span => cases h; exact yields_pure_iff.mpr rfl
  | nil span => cases h; exact yields_pure_iff.mpr rfl
  | self span =>
    cases h with | self hs =>
    exact yields_selfType_iff.mpr ⟨hs, rfl⟩
  | ident name span => exact identType_of_hasType h
  | paren inner span =>
    cases h with | paren h =>
    rw [exprType]
    exact yields_of_hasType inner h
  | binary op left right span =>
    cases h with | binary hl hr ht =>
    simp only [exprType, yields_bind_iff, yields_demandValue_iff, yields_orMismatch_iff]
    refine ⟨_, ⟨yields_of_hasType left hl, ?_⟩, _, ⟨yields_of_hasType right hr, ?_⟩,
      ExprTy.binary?_of_takes hl.isPlain hr.isPlain ht⟩
    · exact ht.left_ne_void
    · exact ht.right_ne_void
  | unary op operand span =>
    cases h with | unary ho ht =>
    simp only [exprType, yields_bind_iff, yields_demandValue_iff, yields_orMismatch_iff]
    exact ⟨_, ⟨yields_of_hasType operand ho, by simp⟩,
      (ExprTy.unary?_eq_some_iff ho.isPlain ho.ne_unknown).mpr ⟨_, rfl, rfl, ht⟩⟩
  | index object position span =>
    cases h with | index ho hp =>
    simp only [exprType, yields_bind_iff, yields_demandValue_iff]
    exact ⟨_, ⟨yields_of_hasType object ho, by simp⟩, _,
      ⟨yields_of_hasType position hp, by simp⟩,
      (yields_elementResult_iff ho.ne_unknown hp.isPlain hp.ne_unknown).mpr
        ⟨_, _, rfl, rfl, rfl⟩⟩
  | field object name span =>
    cases h with | field ho hd ha hs =>
    subst hs
    simp only [exprType, yields_bind_iff, yields_demandValue_iff]
    exact ⟨_, ⟨yields_of_hasType object ho, hd.ne_void⟩, _, attribute?_of_denotes hd ha,
      yields_pure_iff.mpr rfl⟩
  | call receiver method args span =>
    cases h with | call hr hd hm hs hargs hfit =>
    subst hs
    simp only [exprType, yields_bind_iff, yields_demandValue_iff]
    exact ⟨_, ⟨yields_of_hasType receiver hr, hd.ne_void⟩, _, method?_of_denotes hd hm, _,
      yields_of_haveTypes args hargs,
      (yields_callResult_iff hargs.isPlain hargs.ne_unknown).mpr ⟨hfit, rfl⟩⟩
  | create c args span =>
    cases h with | create hv hargs hfit =>
    obtain ⟨entry, hentry, rfl⟩ := Option.map_eq_some_iff.mp hv
    have hcontains : ctx.table.contains c = true := Option.isSome_iff_exists.mpr ⟨_, hentry⟩
    simp only [exprType, yields_bind_iff]
    exact ⟨(), yields_demandClass_iff.mpr hcontains, _, yields_of_haveTypes args hargs,
      (yields_createResult_iff hargs.isPlain hargs.ne_unknown hentry).mpr ⟨hfit, rfl⟩⟩
  | array elements span =>
    cases h with | array helements hT =>
    simp only [exprType, yields_bind_iff]
    refine ⟨_, yields_of_haveTypes elements helements,
      (yields_arrayResult_iff helements.isPlain helements.ne_unknown).mpr ⟨_, hT, ?_⟩⟩
    rw [helements.length_eq]

private theorem yields_of_haveTypes (es : List Expr) {τs : List ExprTy}
    (h : HaveTypes ctx.setting scope.env es τs) : (ctx.valueTypes scope es).Yields τs := by
  cases es with
  | nil => cases h; exact yields_pure_iff.mpr rfl
  | cons e es =>
    cases h with | cons he hv hes =>
    simp only [valueTypes, yields_bind_iff, yields_demandValue_iff, yields_pure_iff]
    exact ⟨_, ⟨yields_of_hasType e he, hv⟩, _, yields_of_haveTypes es hes, rfl⟩

end

end

/-- The check of an expression reports nothing and yields a known type exactly if the expression
has that type, in every state that names only declared classes; and no expression has two
types. -/
theorem yields_iff_hasType (ctx : Context) (scope : Scope) (hc : ctx.Closed scope) (e : Expr) :
    (∀ τ, (ctx.exprType scope e).Yields τ ∧ τ ≠ .unknown ↔
      HasType ctx.setting scope.env e τ) ∧
    ∀ (S : Setting) (Γ : Env) (τ τ' : ExprTy), HasType S Γ e τ → HasType S Γ e τ' → τ = τ' := by
  refine ⟨fun τ => ⟨?_, ?_⟩, fun S Γ τ τ' h h' => h.unique e h'⟩
  · rintro ⟨h, -⟩
    exact hasType_of_yields hc e h
  · intro h
    exact ⟨yields_of_hasType e h, h.ne_unknown⟩

/-- A method of a class whose objects are linked to each other by an attribute. -/
def inLink : Context where
  walk := .untilSettled
  table := ⟨[⟨"Link", none,
    [("next", ⟨some (.attribute ⟨.object "Link", false, false, false⟩), none, false⟩)]⟩], false⟩
  className := "Link"
  isStatic := false
  inCtor := false
  result := none

/-- In such a method, with an array of links at hand, the link behind one of them has a type. -/
theorem hasType_next_of_link :
    HasType inLink.setting
      (Scope.env ⟨⟨[⟨"links", .variable, .array (.object "Link") 2, true⟩], 0⟩, []⟩)
      (.field (.index (.ident "links" ⟨0, 0⟩) (.int 1 ⟨0, 0⟩) ⟨0, 0⟩) "next" ⟨0, 0⟩)
      (.known (.object "Link")) := by
  refine ((yields_iff_hasType inLink _ ⟨rfl, ?_, ?_⟩ _).1 _).mp ⟨⟨rfl, rfl⟩, by simp⟩
  · refine ClassTable.classes_within ?_
    simp only [inLink, List.forall_mem_singleton]
    refine ClassEntry.view_within ?_
    simp only [List.forall_mem_singleton]
    refine ⟨?_, nofun, nofun⟩
    rintro _ ⟨⟩ c ⟨⟩
    rfl
  · simp only [Scope.env, Scope.frames, Env.Within, Frame.locals, List.map_cons, List.map_nil,
      List.forall_mem_singleton]
    rintro c ⟨⟩
    rfl

end Context

end ClassCheck
