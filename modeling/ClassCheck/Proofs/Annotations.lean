import ClassCheck.Proofs.NamedClasses
import ClassCheck.Proofs.TableStatics

/-!
# The types written in the heads of members

The types that a class table holds are those written in the heads of members, the class of a
constructor, and the primitive types of the built-in class. Each written type is checked when
its member is, so after all members every class that the table names is declared or reported.
-/

namespace ClassCheck

/-- The types written in the head of a member. -/
def Member.annotations : Member → List WrittenType
  | .attribute decl _ => [decl.type]
  | .method decl _ => decl.result.toList ++ decl.params.map (·.type)
  | .ctor decl _ => decl.params.map (·.type)
  | .dtor _ _ => []

/-- The class of input and output is all that the names around every member name. -/
theorem Env.within_globalEnv {D : String → Prop} (hio : D ioClass) : globalEnv.Within D := by
  rintro frame (_ | ⟨_, ⟨⟩⟩) l (_ | ⟨_, ⟨⟩⟩) _ ⟨⟩
  exact hio

/-- All classes named in what is declared have a property. -/
def Content.Within (D : String → Prop) : Content → Prop
  | .value (.attribute info) => info.type.Within D
  | .value (.method signature) => signature.Within D
  | .ctor signature => signature.Within D
  | .dtor => True

private theorem within_paramTypes {D : String → Prop} {params : List Param}
    (h : ∀ type ∈ params.map (·.type), (Ty.ofWritten type).Within D) :
    ∀ param ∈ ClassTable.paramTypes params, param.2.Within D := by
  intro param hparam
  obtain ⟨q, hq, rfl⟩ := List.mem_map.mp hparam
  exact h q.type (List.mem_map_of_mem hq)

/-- A member declares types that are written in its head, and a constructor that of its class. -/
theorem Member.declarations_within {D : String → Prop} {c : String} {m : Member} (hc : D c)
    (h : ∀ type ∈ m.annotations, (Ty.ofWritten type).Within D) :
    ∀ d ∈ m.declarations c, d.content.Within D := by
  intro d hd
  match m with
  | .attribute decl span =>
    obtain ⟨e, -, rfl⟩ := List.mem_map.mp hd
    exact h decl.type (List.mem_singleton_self _)
  | .method decl span =>
    obtain rfl := List.mem_singleton.mp hd
    refine ⟨fun T hT => ?_, within_paramTypes fun type htype => h type ?_⟩
    · obtain ⟨type, htype, rfl⟩ := Option.map_eq_some_iff.mp hT
      exact h type (List.mem_append_left _ (Option.mem_toList.mpr htype))
    · exact List.mem_append_right _ htype
  | .ctor decl span =>
    obtain rfl := List.mem_singleton.mp hd
    refine ⟨?_, within_paramTypes h⟩
    rintro _ ⟨⟩ _ ⟨⟩
    exact hc
  | .dtor decl span =>
    obtain rfl := List.mem_singleton.mp hd
    trivial

/-- What a class declares keeps to a set of classes if all types written in it do. -/
theorem ClassDecl.view_within {D : String → Prop} {c : ClassDecl} (hc : D c.name.name)
    (h : ∀ m ∈ c.members, ∀ type ∈ m.annotations, (Ty.ofWritten type).Within D) :
    c.view.Within D := by
  have hcontent : ∀ d ∈ c.declarations, d.content.Within D := by
    intro d hd
    obtain ⟨m, hm, hd⟩ := List.mem_flatMap.mp hd
    exact m.declarations_within hc (h m hm) d hd
  have hvalue : ∀ name member, c.declarations.findSome? (·.value? name) = some member →
      (Content.value member).Within D := by
    intro name member hfind
    obtain ⟨d, hd, hmember⟩ := List.exists_of_findSome?_eq_some hfind
    rw [← (Declaration.value?_eq_some.mp hmember).2]
    exact hcontent d hd
  refine ⟨?_, ?_, ?_⟩
  · intro name info hinfo
    obtain ⟨member, hmember, hi⟩ := Option.bind_eq_some_iff.mp hinfo
    cases member with
    | method signature => cases hi
    | _ =>
      cases hi
      exact hvalue name _ hmember
  · intro name signature hsignature
    obtain ⟨member, hmember, hs⟩ := Option.bind_eq_some_iff.mp hsignature
    cases member with
    | method signature' =>
      cases hs
      exact hvalue name _ hmember
    | _ => cases hs
  · intro signature hsignature
    obtain ⟨d, hd, hctor⟩ := List.exists_of_findSome?_eq_some hsignature
    have hwithin := hcontent d hd
    rwa [(Declaration.ctor?_eq_some.mp hctor).2] at hwithin

private theorem ClassTable.builtin_within {D : String → Prop} (name : String) {result : Option Ty}
    {params : List Ty} (hresult : ∀ T ∈ result, T.Within D) (hparams : ∀ T ∈ params, T.Within D) :
    (builtin name result params).2.Within D := by
  refine ⟨nofun, ?_, nofun⟩
  rintro _ ⟨⟩
  refine ⟨hresult, fun param hparam => ?_⟩
  obtain ⟨i, hi, rfl⟩ := List.mem_mapIdx.mp hparam
  exact hparams _ (List.getElem_mem hi)

/-- The built-in class names no class. -/
theorem ClassTable.ioEntry_within (D : String → Prop) : ioEntry.view.Within D := by
  refine ClassEntry.view_within ?_
  have hprimitive := Ty.within_primitive D
  simp only [ioEntry, List.forall_mem_cons]
  refine ⟨?_, ?_, ?_, ?_, ?_, ?_, ?_, ?_, ?_, nofun⟩
  all_goals exact builtin_within _ (by simp [hprimitive]) (by simp [hprimitive])

/-- The classes of a program name only classes that the heads of its members name, and their
own. -/
theorem Program.declared_within {D : String → Prop} {p : Program}
    (hnames : ∀ c ∈ p.classes, D c.name.name)
    (h : ∀ c ∈ p.classes, ∀ m ∈ c.members, ∀ type ∈ m.annotations,
      (Ty.ofWritten type).Within D) : p.declared.Within D := by
  intro name v hv
  unfold declared at hv
  split at hv
  · cases hv
    exact ClassTable.ioEntry_within D
  · obtain ⟨c, hfind, rfl⟩ := Option.map_eq_some_iff.mp hv
    have hc := List.mem_of_find?_eq_some hfind
    exact c.view_within (hnames c hc) (h c hc)

/-! ## The check of what is written -/

namespace Context

private theorem declareParams_subset_body (ctx : Context) (params : List Param) (b : Block)
    (p : Progress) :
    (ctx.declareParams params (p.inScope .push)).events ⊆ (ctx.body params b p).events :=
  (ctx.statements_grows b.stmts _).subset

/-- The types in the head of a member are checked with the member. -/
theorem demandType_subset_member {ctx : Context} {m : Member} {type : WrittenType}
    (h : type ∈ m.annotations) (p : Progress) :
    (ctx.demandType type).events ⊆ (ctx.member m p).events := by
  have hparams : ∀ (ctx : Context) {params : List Param} (b : Block) (p : Progress),
      type ∈ params.map (·.type) → (ctx.demandType type).events ⊆ (ctx.body params b p).events := by
    intro ctx params b p htype
    obtain ⟨param, hparam, rfl⟩ := List.mem_map.mp htype
    exact List.Subset.trans (demandType_subset_declareParams hparam _)
      (ctx.declareParams_subset_body params b p)
  match m with
  | .attribute decl span =>
    obtain rfl := List.mem_singleton.mp h
    intro event hmem
    exact (attributeInits_grows _ _ _ _).subset (List.mem_append_right _ hmem)
  | .method decl span =>
    rcases List.mem_append.mp h with hresult | htype
    · intro event hmem
      rw [member, Option.mem_toList.mp hresult]
      exact (body_grows _ _ _ _).subset (List.mem_append_right _ hmem)
    · -- The context of the body has the same table, all that a written type is checked with.
      exact hparams (ctx.enter decl.isStatic false (decl.result.map .ofWritten)) decl.body _ htype
  | .ctor decl span => exact hparams (ctx.enter false true none) decl.body _ h

/-- A traversal that leaves nothing out comes to every member. -/
theorem member_subset_members (ctx : Context) (hw : ctx.walk = .exhaustive) {ms : List Member}
    {m : Member} (h : m ∈ ms) (p : Progress) :
    ∃ q, (ctx.member m q).events ⊆ (ctx.members ms p).events := by
  induction ms generalizing p with
  | nil => cases h
  | cons first rest ih =>
    rw [members, if_neg (by simp [halts, hw])]
    rcases List.mem_cons.mp h with rfl | h
    · exact ⟨p, (ctx.members_grows rest _).subset⟩
    · exact ih h _

end Context

namespace ClassTable

/-- The events of a class are among those of all classes. -/
theorem checkClass_subset_checkClasses {t : ClassTable} {cs : List ClassDecl} {c : ClassDecl}
    (h : c ∈ cs) (p : Progress) :
    ∃ q, (t.checkClass .exhaustive c q).events ⊆ (t.checkClasses .exhaustive cs p).events := by
  induction cs generalizing p with
  | nil => cases h
  | cons first rest ih =>
    rw [checkClasses, if_neg (by simp)]
    rcases List.mem_cons.mp h with rfl | h
    · exact ⟨p, (t.checkClasses_grows .exhaustive rest _).subset⟩
    · exact ih h _

/-- The class named in the head of a member is declared, or reported by a traversal that leaves
nothing out. -/
theorem annotation_within (t : ClassTable) {p : Program} {c : ClassDecl} (hc : c ∈ p.classes)
    {m : Member} (hm : m ∈ c.members) {type : WrittenType} (htype : type ∈ m.annotations) :
    (Ty.ofWritten type).Within (t.Accounts (t.traverse .exhaustive p)) := by
  obtain ⟨q, hq⟩ := checkClass_subset_checkClasses (t := t) hc .start
  obtain ⟨q', hq'⟩ := (Context.ofClass .exhaustive t c.name.name).member_subset_members rfl hm
    (q.note (.enterClass c.name.name))
  have hwritten := List.Subset.trans (Context.demandType_subset_member htype q')
    (List.Subset.trans hq' hq)
  exact Context.within_of_demandType hwritten

/-- A table has the classes of its program. -/
theorem contains_of_build {p : Program} {t : ClassTable} (h : build p = .ok t) {c : ClassDecl}
    (hc : c ∈ p.classes) : t.contains c.name.name = true := by
  rw [← isSome_classes, classes_of_build h, Program.isSome_declared_iff]
  exact Or.inr ⟨c, hc, rfl⟩

/-- A table has the built-in class. -/
theorem contains_ioClass {p : Program} {t : ClassTable} (h : build p = .ok t) :
    t.contains ioClass = true := by
  rw [← isSome_classes, classes_of_build h, Program.isSome_declared_iff]
  exact Or.inl rfl

/-- All classes that a table names are declared, or reported by a traversal that leaves nothing
out. -/
theorem classes_within_accounts {p : Program} {t : ClassTable} (h : build p = .ok t) :
    t.classes.Within (t.Accounts (t.traverse .exhaustive p)) := by
  rw [classes_of_build h]
  refine Program.declared_within ?_ ?_
  · intro c hc
    exact Or.inl (contains_of_build h hc)
  · intro c hc m hm type htype
    exact t.annotation_within hc hm htype

end ClassTable

end ClassCheck
