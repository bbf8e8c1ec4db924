import ClassCheck.Proofs.TableStatics
import Mathlib.Data.List.Pairwise

/-!
# What building the class table gives

Either a table that holds the declarations of the program, or the first fault in a fixed order:
the names of all classes come first, then class after class the class it extends and the names
it declares. Each fault is said of the syntax alone, with what stands before it free of faults.
-/

namespace ClassCheck

/-! ## The first failure of a loop -/

/-- A loop fails at one element, after it has gone through those before. -/
theorem foldlM_eq_error_iff {ε α β : Type} {f : β → α → Except ε β} {l : List α} {b : β} {v : ε} :
    l.foldlM f b = .error v ↔ ∃ before a after b', l = before ++ a :: after ∧
      before.foldlM f b = .ok b' ∧ f b' a = .error v := by
  constructor
  · intro h
    induction l generalizing b with
    | nil => cases h
    | cons a l ih =>
      rw [List.foldlM_cons] at h
      cases ha : f b a with
      | error w =>
        rw [ha] at h
        cases h
        exact ⟨[], a, l, b, rfl, rfl, ha⟩
      | ok b₁ =>
        rw [ha] at h
        obtain ⟨before, x, after, b', rfl, hbefore, hx⟩ := ih h
        refine ⟨a :: before, x, after, b', rfl, ?_, hx⟩
        rw [List.foldlM_cons, ha]
        exact hbefore
  · rintro ⟨before, a, after, b', rfl, hbefore, ha⟩
    rw [List.foldlM_append, hbefore]
    show (a :: after).foldlM f b' = .error v
    rw [List.foldlM_cons, ha]
    rfl

private theorem bind_pure_eq_error_iff {ε α β : Type} {x : Except ε α} {f : α → β} {v : ε} :
    (x >>= fun a => pure (f a)) = .error v ↔ x = .error v := by
  cases x <;> simp [bind, Except.bind, pure, Except.pure]

/-! ## Names declared twice in a class -/

/-- What a declaration is called that does not get along with one before it: two attributes after
the first of them, anything else after the declaration itself. -/
def Declaration.label (before : List Declaration) (d : Declaration) : Declared :=
  match d.content with
  | .value (.attribute info) => ClassEntry.attributeLabel
      (((before.findSome? (·.value? d.name)).bind ValueMember.attribute?).getD info).isFinal
  | .value (.method _) => .method
  | .ctor _ => .ctor
  | .dtor => .dtor

namespace ClassEntry

/-- A declaration is refused exactly if it does not get along with one entered before. -/
theorem Records.declare_eq_error_iff {e : ClassEntry} {before : List Declaration}
    (h : e.Records before) {d : Declaration} {what : Declared} :
    e.declare d = .error what ↔ (∃ d' ∈ before, ¬ d'.Coexist d) ∧ what = d.label before := by
  have hguard : ∀ {b : Bool} {label : Declared} {new : ClassEntry},
      (if b then .error label else .ok new : Except Declared ClassEntry) = .error what ↔
        b = true ∧ what = label := by
    intro b label new
    cases b <;> simp [eq_comm]
  have hrefuses : (∃ d' ∈ before, ¬ d'.Coexist d) ↔
      (e.slotOf d.name).refuses d.content = true := by
    rw [← Bool.not_eq_false, h.refuses_eq_false_iff]
    simp
  rw [hrefuses]
  unfold declare Declaration.label
  cases d.content with
  | ctor signature => exact hguard
  | dtor => exact hguard
  | value member =>
    cases member with
    | method signature => exact hguard
    | _ info =>
      dsimp only [addAttribute]
      rw [← h.value]
      split
      · rename_i first hfirst
        simp [hfirst, NameSlot.refuses, NameSlot.isOccupied, ValueMember.attribute?, eq_comm]
      · rename_i hother
        have hnone : (e.slotOf d.name).value.bind ValueMember.attribute? = none := by
          cases hvalue : (e.slotOf d.name).value with
          | none => rfl
          | some member =>
            cases member with
            | method signature => rfl
            | _ first => exact absurd hvalue (hother first)
        rw [hnone]
        exact hguard

/-- A declaration is refused just if it clashes with one before it. -/
theorem Records.declareAt_eq_error_iff {e : ClassEntry} {before : List Declaration}
    (h : e.Records before) {site : Declaration × Span} {v : Violation} :
    e.declareAt site = .error v ↔ (∃ d ∈ before, ¬ d.Coexist site.1) ∧
      v = .broken (.redeclared (site.1.label before)) site.1.name site.2 := by
  have hlabel : ∀ what, e.declare site.1 = .error what ↔ _ := fun _ => h.declare_eq_error_iff
  unfold declareAt
  cases hd : e.declare site.1 with
  | ok e' =>
    have hall : ¬ ∃ d ∈ before, ¬ d.Coexist site.1 := by
      intro hex
      simpa [hd] using (hlabel _).mpr ⟨hex, rfl⟩
    simp [ClassTable.redeclared, hall]
  | error what =>
    obtain ⟨hex, rfl⟩ := (hlabel what).mp hd
    simp [ClassTable.redeclared, hex, eq_comm]

end ClassEntry

/-- Of names declared in order, the first that does not get along with one before it, as it is
reported. -/
def FirstClash (sites : List (Declaration × Span)) (v : Violation) : Prop :=
  ∃ before d span after, sites = before ++ (d, span) :: after ∧
    (before.map Prod.fst).Pairwise Declaration.Coexist ∧
    (∃ d' ∈ before.map Prod.fst, ¬ d'.Coexist d) ∧
    v = .broken (.redeclared (d.label (before.map Prod.fst))) d.name span

/-- Entering names into an empty class fails at the first clash. -/
theorem ClassEntry.declaresAt_eq_error_iff {name : String} {parent : Option String}
    {sites : List (Declaration × Span)} {v : Violation} :
    sites.foldlM declareAt (bare name parent) = .error v ↔ FirstClash sites v := by
  have hbare := records_bare name parent
  rw [foldlM_eq_error_iff]
  constructor
  · rintro ⟨before, ⟨d, span⟩, after, e, hsites, hbefore, hd⟩
    rw [declaresAt_eq_ok_iff] at hbefore
    obtain ⟨hclash, hv⟩ := (hbare.of_declares hbefore).declareAt_eq_error_iff.mp hd
    exact ⟨before, d, span, after, hsites, (hbare.exists_declares_iff.mp ⟨e, hbefore⟩).2,
      hclash, hv⟩
  · rintro ⟨before, d, span, after, hsites, hpair, hclash, hv⟩
    obtain ⟨e, hbefore⟩ := hbare.exists_declares_iff.mpr ⟨List.forall_mem_nil _, hpair⟩
    exact ⟨before, (d, span), after, e, hsites, declaresAt_eq_ok_iff.mpr hbefore,
      (hbare.of_declares hbefore).declareAt_eq_error_iff.mpr ⟨hclash, hv⟩⟩

/-! ## The first fault of a program -/

namespace Program

/-- A class can be named: it is built in or declared somewhere. -/
def Names (p : Program) (name : String) : Prop :=
  name = ioClass ∨ ∃ c ∈ p.classes, c.name.name = name

/-- The class that a class extends, if any, can be named. -/
def ExtendsKnown (p : Program) (c : ClassDecl) : Prop :=
  ∀ parent, c.parent = some parent → p.Names parent.name

/-- A class can be entered in the table. -/
structure Admits (p : Program) (c : ClassDecl) : Prop where
  /-- It extends nothing unknown. -/
  parent : p.ExtendsKnown c
  /-- Two declarations of one name are a constructor and a destructor. -/
  declarations : c.declarations.Pairwise Declaration.Coexist

/-- The first violation that stands in the way of a table. The names of all classes are looked at
before the rest of any, and the classes before the one at fault can be entered. -/
inductive FirstFault (p : Program) : Violation → Prop
  /-- A class has the name of the built-in class or of a class before it. -/
  | className {before after : List ClassDecl} {c : ClassDecl} :
      p.classes = before ++ c :: after → (ioClass :: before.map (·.name.name)).Nodup →
      c.name.name ∈ ioClass :: before.map (·.name.name) →
      FirstFault p (.broken (.redeclared .classType) c.name.name c.name.span)
  /-- A class extends one that cannot be named. -/
  | parent {before after : List ClassDecl} {c : ClassDecl} {parent : Ident} :
      (ioClass :: p.classes.map (·.name.name)).Nodup → p.classes = before ++ c :: after →
      (∀ d ∈ before, p.Admits d) → c.parent = some parent → ¬ p.Names parent.name →
      FirstFault p (.broken .undeclaredClass parent.name parent.span)
  /-- A name does not get along with one declared before it in the class. -/
  | member {before after : List ClassDecl} {c : ClassDecl} {v : Violation} :
      (ioClass :: p.classes.map (·.name.name)).Nodup → p.classes = before ++ c :: after →
      (∀ d ∈ before, p.Admits d) → p.ExtendsKnown c → FirstClash c.sites v → FirstFault p v

private theorem names_iff {p : Program} {name : String} :
    p.Names name ↔ name ∈ ioClass :: p.classes.map (·.name.name) := by
  simp [Names]

end Program

namespace ClassTable

/-- The class found to be repeated is the first whose name was there before. -/
theorem repeated?_eq_some_iff {seen : List String} {cs : List ClassDecl} {c : ClassDecl} :
    repeated? seen cs = some c ↔ ∃ before after, cs = before ++ c :: after ∧
      repeated? seen before = none ∧ (c.name.name ∈ seen ∨ c.name.name ∈ before.map (·.name.name)) := by
  induction cs generalizing seen with
  | nil => simp [repeated?]
  | cons first cs ih =>
    rw [repeated?]
    by_cases hfirst : seen.contains first.name.name
    · rw [if_pos hfirst]
      constructor
      · rintro ⟨⟩
        exact ⟨[], cs, rfl, rfl, Or.inl (List.contains_iff_mem.mp hfirst)⟩
      · rintro ⟨before, after, hcs, hbefore, -⟩
        cases before with
        | nil => cases hcs; rfl
        | cons b before =>
          cases hcs
          rw [repeated?, if_pos hfirst] at hbefore
          cases hbefore
    · rw [if_neg hfirst, ih]
      constructor
      · rintro ⟨before, after, rfl, hbefore, hmem⟩
        refine ⟨first :: before, after, rfl, ?_, ?_⟩
        · rwa [repeated?, if_neg hfirst]
        · simpa [or_assoc, or_left_comm] using hmem
      · rintro ⟨before, after, hcs, hbefore, hmem⟩
        cases before with
        | nil =>
          cases hcs
          simp_all
        | cons b before =>
          cases hcs
          rw [repeated?, if_neg hfirst] at hbefore
          exact ⟨before, after, rfl, hbefore, by simpa [or_assoc, or_left_comm] using hmem⟩

/-- Classes cannot be entered just if one of them cannot and those before it can. -/
theorem declareClasses_eq_error_iff {known : List String} {cs : List ClassDecl} {v : Violation} :
    declareClasses known cs = .error v ↔ ∃ before c after, cs = before ++ c :: after ∧
      (∀ d ∈ before, ∃ e, declareClass known d = .ok e) ∧ declareClass known c = .error v := by
  induction cs with
  | nil => simp [declareClasses]
  | cons first cs ih =>
    rw [declareClasses]
    cases hfirst : declareClass known first with
    | error w =>
      constructor
      · rintro ⟨⟩
        exact ⟨[], first, cs, rfl, List.forall_mem_nil _, hfirst⟩
      · rintro ⟨before, c, after, hcs, hbefore, hc⟩
        cases before with
        | nil =>
          cases hcs
          rw [hfirst] at hc
          exact congrArg _ (Except.error.inj hc)
        | cons b before =>
          cases hcs
          obtain ⟨e, he⟩ := hbefore first (List.mem_cons_self ..)
          cases hfirst.symm.trans he
    | ok e =>
      rw [show (Except.ok e >>= fun e => declareClasses known cs >>= fun es => pure (e :: es)) =
        (declareClasses known cs >>= fun es => pure (e :: es)) from rfl,
        bind_pure_eq_error_iff, ih]
      constructor
      · rintro ⟨before, c, after, rfl, hbefore, hc⟩
        exact ⟨first :: before, c, after, rfl,
          List.forall_mem_cons.mpr ⟨⟨e, hfirst⟩, hbefore⟩, hc⟩
      · rintro ⟨before, c, after, hcs, hbefore, hc⟩
        cases before with
        | nil =>
          cases hcs
          cases hfirst.symm.trans hc
        | cons b before =>
          cases hcs
          exact ⟨before, c, after, rfl, (List.forall_mem_cons.mp hbefore).2, hc⟩

/-- A class is refused for what it extends, or else for a name it declares. -/
theorem declareClass_eq_error_iff {known : List String} {c : ClassDecl} {v : Violation} :
    declareClass known c = .error v ↔
      (∃ parent, c.parent = some parent ∧ parent.name ∉ known ∧
        v = .broken .undeclaredClass parent.name parent.span) ∨
      (∀ parent, c.parent = some parent → parent.name ∈ known) ∧ FirstClash c.sites v := by
  have hmembers : ∀ parent, declareMembers c.members (.bare c.name.name parent) = .error v ↔
      FirstClash c.sites v := by
    intro parent
    rw [declareMembers_eq]
    exact ClassEntry.declaresAt_eq_error_iff
  unfold declareClass
  cases hparent : c.parent with
  | none => simpa using hmembers none
  | some parent =>
    dsimp only
    by_cases hknown : parent.name ∈ known
    · rw [if_pos (List.contains_iff_mem.mpr hknown), hmembers]
      simp [hknown]
    · rw [if_neg (by simpa using hknown)]
      simp [hknown, eq_comm]

/-- A class can be entered just if the program admits it. -/
theorem exists_declareClass_iff_admits {p : Program} {c : ClassDecl} :
    (∃ e, declareClass (ioClass :: p.classes.map (·.name.name)) c = .ok e) ↔ p.Admits c := by
  rw [exists_declareClass_iff]
  simp only [← Program.names_iff]
  exact ⟨fun h => ⟨h.1, h.2⟩, fun h => ⟨h.1, h.2⟩⟩

/-- The table is refused for the first fault of the program. -/
theorem build_eq_error_iff {p : Program} {v : Violation} :
    build p = .error v ↔ p.FirstFault v := by
  unfold build
  cases hr : repeated? [ioClass] p.classes with
  | some c =>
    obtain ⟨before, after, hcs, hbefore, hc⟩ := repeated?_eq_some_iff.mp hr
    have hdup : ¬ (ioClass :: p.classes.map (·.name.name)).Nodup := by
      rw [← distinctNames_iff, hr]
      simp
    constructor
    · rintro ⟨⟩
      exact .className hcs (distinctNames_iff.mp hbefore) (by simpa using hc)
    · intro hv
      cases hv with
      | className hcs' hbefore' hc' =>
        have hr' := repeated?_eq_some_iff.mpr
          ⟨_, _, hcs', distinctNames_iff.mpr hbefore', by simpa using hc'⟩
        cases hr.symm.trans hr'
        rfl
      | parent hnodup => exact absurd hnodup hdup
      | member hnodup => exact absurd hnodup hdup
  | none =>
    have hnodup := distinctNames_iff.mp hr
    refine bind_pure_eq_error_iff.trans ?_
    rw [declareClasses_eq_error_iff]
    simp only [exists_declareClass_iff_admits, declareClass_eq_error_iff, ← Program.names_iff]
    constructor
    · rintro ⟨before, c, after, hcs, hbefore, ⟨parent, hparent, hunknown, rfl⟩ | ⟨hknown, hv⟩⟩
      · exact .parent hnodup hcs hbefore hparent hunknown
      · exact .member hnodup hcs hbefore hknown hv
    · intro hv
      cases hv with
      | className hcs hbefore hc =>
        have hr' := repeated?_eq_some_iff.mpr
          ⟨_, _, hcs, distinctNames_iff.mpr hbefore, by simpa using hc⟩
        cases hr.symm.trans hr'
      | parent _ hcs hbefore hparent hunknown =>
        exact ⟨_, _, _, hcs, hbefore, Or.inl ⟨_, hparent, hunknown, rfl⟩⟩
      | member _ hcs hbefore hknown hv => exact ⟨_, _, _, hcs, hbefore, Or.inr ⟨hknown, hv⟩⟩

end ClassTable

/-! ## What a table holds -/

/-- An entry holds the parent of a class and, under each name, what the class declares. -/
structure ClassEntry.Represents (e : ClassEntry) (c : ClassDecl) : Prop where
  /-- The name of the class. -/
  name : e.name = c.name.name
  /-- The class it extends. -/
  parent : e.parent = c.parent.map (·.name)
  /-- Its attributes and methods. -/
  value : ∀ name member, (e.slotOf name).value = some member ↔
    ⟨name, .value member⟩ ∈ c.declarations
  /-- Its constructors. -/
  ctor : ∀ name signature, (e.slotOf name).ctor = some signature ↔
    ⟨name, .ctor signature⟩ ∈ c.declarations
  /-- Its destructors. -/
  dtor : ∀ name, (e.slotOf name).dtor = true ↔ ⟨name, .dtor⟩ ∈ c.declarations

/-- A table holds the classes of a program and the built-in class, and says whether the program
can start. -/
structure ClassTable.Represents (t : ClassTable) (p : Program) : Prop where
  /-- The classes that can be named are in it and no others. -/
  contains : ∀ name, t.contains name = true ↔ p.Names name
  /-- Every class of the program has its entry. -/
  entries : ∀ c ∈ p.classes, ∃ e, t.get? c.name.name = some e ∧ e.Represents c
  /-- The built-in class is as it was. -/
  builtin : t.get? ioClass = some ioEntry
  /-- Some class has a static method to start with, without parameters and without a result. -/
  entryPoint : t.hasEntryPoint = true ↔ ∃ c ∈ p.classes, ∃ decl span,
    .method decl span ∈ c.members ∧ decl.name = mainName ∧ decl.isStatic = true ∧
      decl.params = [] ∧ decl.result = none

namespace Declaration

/-- A search among declarations that get along finds what is declared, if no two declarations of
the kind that is looked for get along. -/
theorem findSome?_eq_some_iff_mem {α : Type} {ds : List Declaration} (h : ds.Pairwise Coexist)
    {f : Declaration → Option α} (make : α → Declaration)
    (hf : ∀ d a, f d = some a ↔ d = make a) (hclash : ∀ a b, ¬ (make a).Coexist (make b)) {a : α} :
    ds.findSome? f = some a ↔ make a ∈ ds := by
  have hmem : ∀ {b}, ds.findSome? f = some b → make b ∈ ds := by
    intro b hfind
    obtain ⟨d, hd, hb⟩ := List.exists_of_findSome?_eq_some hfind
    rwa [(hf d b).mp hb] at hd
  refine ⟨hmem, fun ha => ?_⟩
  have hsome : (ds.findSome? f).isSome = true :=
    List.findSome?_isSome_iff.mpr ⟨make a, ha, by rw [(hf _ a).mpr rfl]; rfl⟩
  obtain ⟨b, hb⟩ := Option.isSome_iff_exists.mp hsome
  have hsame : make b = make a := by
    by_contra hne
    exact hclash b a (h.forall (hmem hb) ha hne)
  rw [hb, ← (hf _ b).mpr rfl, hsame]
  exact (hf _ a).mpr rfl

end Declaration

/-- The entry of a class represents it. -/
theorem ClassEntry.represents_of_declareClass {known : List String} {c : ClassDecl}
    {e : ClassEntry} (h : ClassTable.declareClass known c = .ok e) : e.Represents c := by
  have hpair := (ClassTable.exists_declareClass_iff.mp ⟨e, h⟩).2
  have hdeclares := (ClassTable.declareClass_eq_ok_iff.mp h).2
  obtain ⟨hname, hparent⟩ := name_of_declares hdeclares
  have hrecords := (records_bare c.name.name (c.parent.map (·.name))).of_declares hdeclares
  refine ⟨hname, hparent, ?_, ?_, ?_⟩
  · intro name member
    rw [hrecords.value]
    refine Declaration.findSome?_eq_some_iff_mem hpair (fun m => ⟨name, .value m⟩) ?_ ?_
    · rintro ⟨n, content⟩ m
      simp [Declaration.value?_eq_some]
    · simp [Declaration.Coexist]
  · intro name signature
    rw [hrecords.ctor]
    refine Declaration.findSome?_eq_some_iff_mem hpair (fun s => ⟨name, .ctor s⟩) ?_ ?_
    · rintro ⟨n, content⟩ s
      simp [Declaration.ctor?_eq_some]
    · simp [Declaration.Coexist]
  · intro name
    refine hrecords.dtor_iff.trans ⟨?_, fun hd => ⟨_, hd, rfl, rfl⟩⟩
    rintro ⟨⟨n, content⟩, hd, rfl, rfl⟩
    exact hd

namespace ClassTable

/-- Each declared class is found among the entries, in one that represents it. -/
theorem exists_find?_declareClasses {known : List String} {cs : List ClassDecl}
    {es : List ClassEntry} (h : declareClasses known cs = .ok es)
    (hnodup : (cs.map (·.name.name)).Nodup) {c : ClassDecl} (hc : c ∈ cs) :
    ∃ e, es.find? (·.name = c.name.name) = some e ∧ e.Represents c := by
  replace h := declareClasses_eq_ok_iff.mp h
  induction h with
  | nil => cases hc
  | @cons d e cs es hd _ ih =>
    have he := ClassEntry.represents_of_declareClass hd
    rw [List.map_cons, List.nodup_cons] at hnodup
    rcases List.mem_cons.mp hc with rfl | hc
    · exact ⟨e, List.find?_cons_of_pos (by simp [he.name]), he⟩
    · have hne : d.name.name ≠ c.name.name :=
        (ne_of_mem_of_not_mem (List.mem_map_of_mem hc) hnodup.1).symm
      rw [List.find?_cons_of_neg (by simp [he.name, hne])]
      exact ih hnodup.2 hc

/-- A table that could be built holds what the program declares. -/
theorem represents_of_build {p : Program} {t : ClassTable} (h : build p = .ok t) :
    t.Represents p := by
  obtain ⟨hnodup, es, hes, rfl⟩ := build_eq_ok_iff.mp h
  rw [List.nodup_cons] at hnodup
  refine ⟨fun name => ?_, fun c hc => ?_, ?_, hasEntryPoint_iff h⟩
  · rw [← isSome_classes, classes_of_build h]
    exact Program.isSome_declared_iff
  · have hne : ioEntry.name ≠ c.name.name :=
      (ne_of_mem_of_not_mem (List.mem_map_of_mem hc) hnodup.1).symm
    obtain ⟨e, hfind, he⟩ := exists_find?_declareClasses hes hnodup.2 hc
    refine ⟨e, ?_, he⟩
    rw [get?, List.find?_cons_of_neg (by simpa using hne)]
    exact hfind
  · rw [get?, List.find?_cons_of_pos (by simp [ioEntry])]

/-- Building the table succeeds exactly if names of classes are distinct, parents known and the
declarations of each class get along; otherwise it reports the first fault. The table holds what
the program declares. -/
theorem build_finds_first_fault (p : Program) :
    ((∃ t, build p = .ok t) ↔ (ioClass :: p.classes.map (·.name.name)).Nodup ∧
      ∀ c ∈ p.classes, p.Admits c) ∧
    (∀ v, build p = .error v ↔ p.FirstFault v) ∧
    ∀ t, build p = .ok t → t.Represents p := by
  refine ⟨?_, fun v => build_eq_error_iff, fun t => represents_of_build⟩
  rw [exists_build_iff, ← forall₂_and]
  refine and_congr_right fun _ => forall₂_congr fun c _ => ?_
  exact ⟨fun h => ⟨h.1, h.2⟩, fun h => ⟨h.1, h.2⟩⟩

/-- A class that extends one declared after it, with a constructor and a destructor of one
name. -/
def leafClass : ClassDecl :=
  ⟨⟨"Leaf", ⟨6, 10⟩⟩, some ⟨"Tree", ⟨19, 23⟩⟩,
    [.ctor ⟨"Leaf", [], ⟨[], ⟨31, 33⟩⟩⟩ ⟨24, 33⟩, .dtor ⟨"Leaf", ⟨[], ⟨41, 43⟩⟩⟩ ⟨33, 43⟩], ⟨0, 44⟩⟩

/-- A constant and an attribute of one name. -/
def treeSizes : List Member :=
  [.attribute ⟨false, true, .primitive .int ⟨62, 65⟩, [⟨"size", none, ⟨66, 70⟩⟩]⟩ ⟨56, 71⟩,
    .attribute ⟨false, false, .primitive .int ⟨72, 75⟩, [⟨"size", none, ⟨76, 80⟩⟩]⟩ ⟨72, 81⟩]

/-- A program whose classes can be entered. -/
def seedling : Program :=
  ⟨[leafClass, ⟨⟨"Tree", ⟨51, 55⟩⟩, none,
    [.method ⟨true, none, mainName, [], ⟨[], ⟨74, 76⟩⟩⟩ ⟨56, 76⟩], ⟨45, 77⟩⟩], ⟨0, 77⟩⟩

/-- The table of its classes. -/
def seedlingTable : ClassTable where
  entries := [ioEntry,
    ⟨"Leaf", some "Tree", [("Leaf", ⟨none, some ⟨some (.object "Leaf"), [], false⟩, true⟩)]⟩,
    ⟨"Tree", none, [(mainName, ⟨some (.method ⟨none, [], true⟩), none, false⟩)]⟩]
  hasEntryPoint := true

/-- A program with a name declared twice before a class that extends an unknown one. -/
def thicket : Program :=
  ⟨[leafClass, ⟨⟨"Tree", ⟨51, 55⟩⟩, none, treeSizes, ⟨45, 82⟩⟩,
    ⟨⟨"Bush", ⟨89, 93⟩⟩, some ⟨"Shrub", ⟨102, 107⟩⟩, [], ⟨83, 109⟩⟩], ⟨0, 109⟩⟩

/-- The one program has its table, and the other is refused for the name, which is called after
the constant that comes first. -/
theorem seedling_built : build seedling = .ok seedlingTable ∧
    seedlingTable.Represents seedling ∧
    thicket.FirstFault (.broken (.redeclared .constant) "size" ⟨76, 80⟩) := by
  have hbuilt : build seedling = .ok seedlingTable := by decide +kernel
  have hrefused : build thicket = .error (.broken (.redeclared .constant) "size" ⟨76, 80⟩) := by
    decide +kernel
  exact ⟨hbuilt, (build_finds_first_fault seedling).2.2 _ hbuilt,
    ((build_finds_first_fault thicket).2.1 _).mp hrefused⟩

end ClassTable

end ClassCheck
