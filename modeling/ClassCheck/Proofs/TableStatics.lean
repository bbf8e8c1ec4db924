import ClassCheck.Proofs.Statics

/-!
# Building the class table decides what classes may declare

The slots of an entry hold what the declarations so far put under each name. A further
declaration is added exactly if it gets along with each of those before, so a class is entered
exactly if its declarations get along with each other, and the table can be built exactly if the
names of classes are distinct, parents exist and every class can be entered. The table then
names the classes that the program declares, with what they declare.
-/

namespace ClassCheck

/-- Two steps succeed just if the first does and the second does on what it yields. -/
theorem bind_eq_ok_iff {ε α β : Type} {x : Except ε α} {f : α → Except ε β} {b : β} :
    x >>= f = .ok b ↔ ∃ a, x = .ok a ∧ f a = .ok b := by
  cases x with
  | error e => exact ⟨nofun, nofun⟩
  | ok a => exact ⟨fun h => ⟨a, rfl, h⟩, fun ⟨_, ha, h⟩ => by cases ha; exact h⟩

/-- Where the names that a member declares stand. -/
def Member.spans : Member → List Span
  | .attribute decl _ => decl.declarators.map (·.span)
  | m => [m.span]

/-- The names that a member of a class declares, each with its place. -/
def Member.sites (className : String) (m : Member) : List (Declaration × Span) :=
  (m.declarations className).zip m.spans

/-- The sites of a member are those of its declarations. -/
theorem Member.sites_declarations (className : String) (m : Member) :
    (m.sites className).map Prod.fst = m.declarations className := by
  refine List.map_fst_zip ?_
  cases m <;> simp [declarations, spans]

/-- The names that a class declares, each with its place, in order. -/
def ClassDecl.sites (c : ClassDecl) : List (Declaration × Span) :=
  c.members.flatMap (Member.sites c.name.name)

/-- The sites of a class are those of its declarations. -/
theorem ClassDecl.sites_declarations (c : ClassDecl) :
    c.sites.map Prod.fst = c.declarations := by
  simp only [sites, declarations, List.map_flatMap, Member.sites_declarations]

namespace ClassEntry

/-- One slot is set and the others stay. -/
theorem slot?_setSlot (e : ClassEntry) (name other : String) (slot : NameSlot) :
    (e.setSlot name slot).slot? other = if other = name then some slot else e.slot? other := by
  have hfilter : ∀ slots : List (String × NameSlot), other ≠ name →
      (slots.filter (·.1 ≠ name)).lookup other = slots.lookup other := by
    intro slots hne
    induction slots with
    | nil => rfl
    | cons s slots ih =>
      by_cases hs : s.1 = name
      · have hother : (other == s.1) = false := by simp [hs, hne]
        rw [List.filter_cons_of_neg (by simp [hs]), ih, List.lookup_cons, hother]
      · rw [List.filter_cons_of_pos (by simp [hs]), List.lookup_cons, List.lookup_cons, ih]
  unfold slot? setSlot
  rw [List.lookup_cons]
  by_cases h : other = name
  · simp [h]
  · have hne : (other == name) = false := by simpa using h
    rw [hne, if_neg h, hfilter e.slots h]

/-- So do the contents of all other names. -/
theorem slotOf_setSlot (e : ClassEntry) (name other : String) (slot : NameSlot) :
    (e.setSlot name slot).slotOf other = if other = name then slot else e.slotOf other := by
  unfold slotOf
  rw [slot?_setSlot]
  by_cases h : other = name
  · rw [if_pos h, if_pos h, Option.getD_some]
  · rw [if_neg h, if_neg h]

/-! ## One declaration after another -/

/-- Enter a declaration. -/
def declare (e : ClassEntry) (d : Declaration) : Except Declared ClassEntry :=
  match d.content with
  | .value (.attribute info) => e.addAttribute d.name info
  | .value (.method signature) => e.addMethod d.name signature
  | .ctor signature => e.addCtor d.name signature
  | .dtor => e.addDtor d.name

end ClassEntry

namespace NameSlot

/-- Whether what is declared under a name leaves no room for more. -/
def refuses (slot : NameSlot) : Content → Bool
  | .value _ => slot.isOccupied
  | .ctor _ => slot.value.isSome || slot.ctor.isSome
  | .dtor => slot.value.isSome || slot.dtor

/-- What is declared under a name after one more declaration. -/
def put (slot : NameSlot) : Content → NameSlot
  | .value member => { slot with value := some member }
  | .ctor signature => { slot with ctor := some signature }
  | .dtor => { slot with dtor := true }

private theorem value_of_not_refuses {slot : NameSlot} {content : Content}
    (h : slot.refuses content = false) : slot.value = none := by
  cases content <;> simp_all [refuses, isOccupied]

end NameSlot

/-- A declaration is entered unless the slot of its name refuses it, and changes only that. -/
theorem ClassEntry.declare_eq_ok_iff {e e' : ClassEntry} {d : Declaration} :
    e.declare d = .ok e' ↔ (e.slotOf d.name).refuses d.content = false ∧
      e' = e.setSlot d.name ((e.slotOf d.name).put d.content) := by
  have hguard : ∀ (b : Bool) (what : Declared) (new : ClassEntry),
      (if b then .error what else .ok new : Except Declared ClassEntry) = .ok e' ↔
        b = false ∧ e' = new := by
    intro b what new
    cases b <;> simp [eq_comm]
  unfold declare
  cases d.content with
  | ctor signature => exact hguard _ _ _
  | dtor => exact hguard _ _ _
  | value member =>
    cases member with
    | method signature => exact hguard _ _ _
    | _ =>
      dsimp only [addAttribute]
      split
      · rename_i hfirst
        simp [NameSlot.refuses, NameSlot.isOccupied, hfirst]
      · exact hguard _ _ _

/-- Whether a destructor is declared under a name. -/
def Declaration.isDtor (name : String) (d : Declaration) : Bool :=
  d.content = .dtor && d.name = name

/-- The slots of an entry hold what declarations put under each name. -/
structure ClassEntry.Records (e : ClassEntry) (ds : List Declaration) : Prop where
  /-- The attributes and methods. -/
  value : ∀ name, (e.slotOf name).value = ds.findSome? (·.value? name)
  /-- The constructors. -/
  ctor : ∀ name, (e.slotOf name).ctor = ds.findSome? (·.ctor? name)
  /-- The destructors. -/
  dtor : ∀ name, (e.slotOf name).dtor = ds.any (·.isDtor name)

namespace ClassEntry

/-- An entry without slots records no declarations. -/
theorem records_bare (name : String) (parent : Option String) : (bare name parent).Records [] :=
  ⟨fun _ => rfl, fun _ => rfl, fun _ => rfl⟩

section

variable {e : ClassEntry} {ds : List Declaration} (h : e.Records ds) {name : String}

include h

/-- A name has an attribute or a method just if one was declared. -/
theorem Records.value_isSome_iff :
    (e.slotOf name).value.isSome = true ↔
      ∃ d ∈ ds, d.name = name ∧ ∃ member, d.content = .value member := by
  rw [h.value, List.findSome?_isSome_iff]
  refine exists_congr fun d => and_congr_right fun _ => ?_
  unfold Declaration.value?
  cases d.content <;> simp

/-- It has a constructor just if one was declared. -/
theorem Records.ctor_isSome_iff :
    (e.slotOf name).ctor.isSome = true ↔
      ∃ d ∈ ds, d.name = name ∧ ∃ signature, d.content = .ctor signature := by
  rw [h.ctor, List.findSome?_isSome_iff]
  refine exists_congr fun d => and_congr_right fun _ => ?_
  unfold Declaration.ctor?
  cases d.content <;> simp

/-- It has a destructor just if one was declared. -/
theorem Records.dtor_iff :
    (e.slotOf name).dtor = true ↔ ∃ d ∈ ds, d.name = name ∧ d.content = .dtor := by
  rw [h.dtor, List.any_eq_true]
  refine exists_congr fun d => and_congr_right fun _ => ?_
  simp [Declaration.isDtor, and_comm]

/-- A name is taken just if something was declared under it. -/
theorem Records.isOccupied_iff :
    (e.slotOf name).isOccupied = true ↔ ∃ d ∈ ds, d.name = name := by
  rw [NameSlot.isOccupied, Bool.or_eq_true, Bool.or_eq_true, h.value_isSome_iff,
    h.ctor_isSome_iff, h.dtor_iff]
  constructor
  · rintro ((⟨d, hd, hn, -⟩ | ⟨d, hd, hn, -⟩) | ⟨d, hd, hn, -⟩) <;> exact ⟨d, hd, hn⟩
  · rintro ⟨d, hd, hn⟩
    cases hcontent : d.content with
    | value member => exact Or.inl (Or.inl ⟨d, hd, hn, member, hcontent⟩)
    | ctor signature => exact Or.inl (Or.inr ⟨d, hd, hn, signature, hcontent⟩)
    | dtor => exact Or.inr ⟨d, hd, hn, hcontent⟩

/-- A slot refuses a declaration exactly if one entered before does not get along with it. -/
theorem Records.refuses_eq_false_iff {d : Declaration} :
    (e.slotOf d.name).refuses d.content = false ↔ ∀ d' ∈ ds, d'.Coexist d := by
  rw [← Bool.not_eq_true]
  cases hcontent : d.content with
  | value member =>
    rw [NameSlot.refuses, h.isOccupied_iff]
    simp [Declaration.Coexist, hcontent]
  | ctor signature =>
    rw [NameSlot.refuses, Bool.or_eq_true, h.value_isSome_iff, h.ctor_isSome_iff]
    simp only [Declaration.Coexist, hcontent]
    constructor
    · intro hno d' hd' hn
      cases hc : d'.content with
      | value member => exact absurd (Or.inl ⟨d', hd', hn, member, hc⟩) hno
      | ctor s => exact absurd (Or.inr ⟨d', hd', hn, s, hc⟩) hno
      | dtor => simp
    · rintro hall (⟨d', hd', hn, member, hm⟩ | ⟨d', hd', hn, s, hs⟩)
      · simpa [hm] using hall d' hd' hn
      · simpa [hs] using hall d' hd' hn
  | dtor =>
    rw [NameSlot.refuses, Bool.or_eq_true, h.value_isSome_iff, h.dtor_iff]
    simp only [Declaration.Coexist, hcontent]
    constructor
    · intro hno d' hd' hn
      cases hc : d'.content with
      | value member => exact absurd (Or.inl ⟨d', hd', hn, member, hc⟩) hno
      | ctor s => simp
      | dtor => exact absurd (Or.inr ⟨d', hd', hn, hc⟩) hno
    · rintro hall (⟨d', hd', hn, member, hm⟩ | ⟨d', hd', hn, hs⟩)
      · simpa [hm] using hall d' hd' hn
      · simpa [hs] using hall d' hd' hn

/-- A declaration that is entered is recorded behind those before. -/
theorem Records.of_declare {d : Declaration} {e' : ClassEntry} (hd : e.declare d = .ok e') :
    e'.Records (ds ++ [d]) := by
  obtain ⟨hroom, rfl⟩ := declare_eq_ok_iff.mp hd
  -- A slot with room has no attribute or method yet, so what is put there is the first.
  have hvalue := NameSlot.value_of_not_refuses hroom
  constructor
  all_goals intro name; rw [slotOf_setSlot]
  · rw [List.findSome?_append, ← h.value]
    by_cases hname : name = d.name
    · subst hname
      cases hcontent : d.content <;> simp [NameSlot.put, Declaration.value?, hcontent, hvalue]
    · have hnone : d.value? name = none := by
        unfold Declaration.value?
        cases d.content <;> simp [Ne.symm hname]
      simp [hname, hnone]
  · rw [List.findSome?_append, ← h.ctor]
    by_cases hname : name = d.name
    · subst hname
      cases hcontent : d.content <;>
        simp_all [NameSlot.put, Declaration.ctor?, NameSlot.refuses]
    · have hnone : d.ctor? name = none := by
        unfold Declaration.ctor?
        cases d.content <;> simp [Ne.symm hname]
      simp [hname, hnone]
  · rw [List.any_append, ← h.dtor]
    by_cases hname : name = d.name
    · subst hname
      cases hcontent : d.content <;> simp [NameSlot.put, Declaration.isDtor, hcontent]
    · simp [hname, Declaration.isDtor, Ne.symm hname]

end

/-! ## The declarations of a class -/

private theorem name_of_declare {e e' : ClassEntry} {d : Declaration} (h : e.declare d = .ok e') :
    e'.name = e.name ∧ e'.parent = e.parent := by
  obtain ⟨-, rfl⟩ := declare_eq_ok_iff.mp h
  exact ⟨rfl, rfl⟩

/-- Declarations change neither the name of a class nor what it extends. -/
theorem name_of_declares {ds : List Declaration} {e e' : ClassEntry}
    (h : ds.foldlM declare e = .ok e') : e'.name = e.name ∧ e'.parent = e.parent := by
  induction ds generalizing e with
  | nil => cases h; exact ⟨rfl, rfl⟩
  | cons d ds ih =>
    rw [List.foldlM_cons, bind_eq_ok_iff] at h
    obtain ⟨e₁, hd, hds⟩ := h
    obtain ⟨hn, hp⟩ := name_of_declare hd
    rw [← hn, ← hp]
    exact ih hds

/-- Declarations that are entered are all recorded. -/
theorem Records.of_declares {before ds : List Declaration} {e e' : ClassEntry}
    (he : e.Records before) (h : ds.foldlM declare e = .ok e') : e'.Records (before ++ ds) := by
  induction ds generalizing e before with
  | nil => cases h; rwa [List.append_nil]
  | cons d ds ih =>
    rw [List.foldlM_cons, bind_eq_ok_iff] at h
    obtain ⟨e₁, hd, hds⟩ := h
    rw [List.append_cons]
    exact ih (he.of_declare hd) hds

/-- Declarations are entered exactly if they get along with those before and with each other. -/
theorem Records.exists_declares_iff {before ds : List Declaration} {e : ClassEntry}
    (he : e.Records before) : (∃ e', ds.foldlM declare e = .ok e') ↔
      (∀ d' ∈ before, ∀ d ∈ ds, d'.Coexist d) ∧ ds.Pairwise Declaration.Coexist := by
  induction ds generalizing e before with
  | nil => simpa using ⟨e, rfl⟩
  | cons d ds ih =>
    simp only [List.foldlM_cons, bind_eq_ok_iff, List.pairwise_cons, List.forall_mem_cons]
    constructor
    · rintro ⟨e', e₁, hd, hds⟩
      obtain ⟨hbefore, hpair⟩ := (ih (he.of_declare hd)).mp ⟨e', hds⟩
      have hroom := he.refuses_eq_false_iff.mp (declare_eq_ok_iff.mp hd).1
      rw [List.forall_mem_append] at hbefore
      exact ⟨fun d' hd' => ⟨hroom d' hd', hbefore.1 d' hd'⟩, hbefore.2 d (by simp), hpair⟩
    · rintro ⟨hbefore, hd, hpair⟩
      have hroom := he.refuses_eq_false_iff.mpr fun d' hd' => (hbefore d' hd').1
      have hdeclare := declare_eq_ok_iff.mpr ⟨hroom, rfl⟩
      obtain ⟨e', hds⟩ := (ih (he.of_declare hdeclare)).mpr ⟨List.forall_mem_append.mpr
        ⟨fun d' hd' => (hbefore d' hd').2, by simpa using hd⟩, hpair⟩
      exact ⟨e', _, hdeclare, hds⟩

/-- Enter a declaration that stands at a place. -/
def declareAt (e : ClassEntry) (site : Declaration × Span) : Except Violation ClassEntry :=
  ClassTable.redeclared site.1.name site.2 (e.declare site.1)

private theorem declareAt_eq_ok_iff {e e' : ClassEntry} {site : Declaration × Span} :
    e.declareAt site = .ok e' ↔ e.declare site.1 = .ok e' := by
  unfold declareAt
  cases e.declare site.1 <;> simp [ClassTable.redeclared]

/-- Whether declarations can be entered does not depend on their places. -/
theorem declaresAt_eq_ok_iff {sites : List (Declaration × Span)} {e e' : ClassEntry} :
    sites.foldlM declareAt e = .ok e' ↔ (sites.map Prod.fst).foldlM declare e = .ok e' := by
  induction sites generalizing e with
  | nil => simp [pure, Except.pure]
  | cons site sites ih =>
    simp only [List.map_cons, List.foldlM_cons, bind_eq_ok_iff, declareAt_eq_ok_iff, ih]

/-- An attribute is found in the slot of its name. -/
theorem attribute?_eq_bind (e : ClassEntry) (name : String) :
    e.attribute? name = (e.slotOf name).value.bind ValueMember.attribute? := by
  unfold attribute?
  split
  · rename_i hv
    rw [hv]; rfl
  · rename_i hv
    match h : (e.slotOf name).value with
    | none => rfl
    | some (.attribute info) => exact absurd h (hv info)
    | some (.method signature) => rfl

/-- So is a method. -/
theorem method?_eq_bind (e : ClassEntry) (name : String) :
    e.method? name = (e.slotOf name).value.bind ValueMember.method? := by
  unfold method?
  split
  · rename_i hv
    rw [hv]; rfl
  · rename_i hv
    match h : (e.slotOf name).value with
    | none => rfl
    | some (.attribute info) => rfl
    | some (.method signature) => exact absurd h (hv signature)

/-- The entry of a class says what the class declares. -/
theorem view_of_declares {c : ClassDecl} {e : ClassEntry}
    (h : c.declarations.foldlM declare (bare c.name.name (c.parent.map (·.name))) = .ok e) :
    e.name = c.name.name ∧ e.view = c.view := by
  obtain ⟨hname, hparent⟩ := name_of_declares h
  replace hname : e.name = c.name.name := hname
  have hrecords := (records_bare c.name.name (c.parent.map (·.name))).of_declares h
  refine ⟨hname, ?_⟩
  unfold view ClassDecl.view
  congr 1
  · funext name
    rw [attribute?_eq_bind, hrecords.value]
    rfl
  · funext name
    rw [method?_eq_bind, hrecords.value]
    rfl
  · rw [hname, hrecords.ctor]
    rfl

end ClassEntry

namespace ClassTable

/-- A member is declared by entering what it declares, each where it stands. -/
theorem declareMember_eq (m : Member) (e : ClassEntry) :
    declareMember m e = (m.sites e.name).foldlM ClassEntry.declareAt e := by
  rcases m with ⟨decl, span⟩ | ⟨decl, span⟩ | ⟨decl, span⟩ | ⟨decl, span⟩
  · have hall : ∀ (ds : List Declarator) (e : ClassEntry),
        declareAttributes decl ds e = (ds.map fun d => ((⟨d.name, .value (.attribute
          ⟨.ofWritten decl.type, decl.isFinal, decl.isStatic, d.init.isSome⟩)⟩ : Declaration),
            d.span)).foldlM ClassEntry.declareAt e := by
      intro ds
      induction ds with
      | nil => exact fun _ => rfl
      | cons d ds ih =>
        intro e
        rw [declareAttributes, List.map_cons, List.foldlM_cons]
        exact congrArg (_ >>= ·) (funext ih)
    rw [declareMember, hall, Member.sites, Member.declarations, Member.spans, List.zip_map']
  all_goals exact (bind_pure _).symm

/-- The members of a class are entered declaration by declaration. -/
theorem declareMembers_eq (ms : List Member) (e : ClassEntry) :
    declareMembers ms e = (ms.flatMap (Member.sites e.name)).foldlM ClassEntry.declareAt e := by
  induction ms generalizing e with
  | nil => rfl
  | cons m ms ih =>
    rw [declareMembers, declareMember_eq, List.flatMap_cons, List.foldlM_append]
    cases h : (m.sites e.name).foldlM ClassEntry.declareAt e with
    | error v => rfl
    | ok e₁ =>
      have hname := (ClassEntry.name_of_declares (ClassEntry.declaresAt_eq_ok_iff.mp h)).1
      rw [← hname]
      exact ih e₁

/-- A class is entered just if its parent is known and its declarations can be entered. -/
theorem declareClass_eq_ok_iff {known : List String} {c : ClassDecl} {e : ClassEntry} :
    declareClass known c = .ok e ↔ (∀ parent, c.parent = some parent → parent.name ∈ known) ∧
      c.declarations.foldlM ClassEntry.declare
        (.bare c.name.name (c.parent.map (·.name))) = .ok e := by
  have hmembers : ∀ parent, declareMembers c.members (.bare c.name.name parent) = .ok e ↔
      c.declarations.foldlM ClassEntry.declare (.bare c.name.name parent) = .ok e := by
    intro parent
    rw [declareMembers_eq, ← c.sites_declarations]
    exact ClassEntry.declaresAt_eq_ok_iff
  unfold declareClass
  cases hparent : c.parent with
  | none => simpa using hmembers none
  | some parent =>
    dsimp only
    by_cases hknown : parent.name ∈ known
    · rw [if_pos (List.contains_iff_mem.mpr hknown)]
      simpa [hknown] using hmembers (some parent.name)
    · rw [if_neg (by simpa using hknown)]
      simp [hknown]

/-! ## The table -/

private theorem repeated?_eq_none_iff {seen : List String} {cs : List ClassDecl} :
    repeated? seen cs = none ↔
      (cs.map (·.name.name)).Nodup ∧ ∀ c ∈ cs, c.name.name ∉ seen := by
  induction cs generalizing seen with
  | nil => simp [repeated?]
  | cons c cs ih =>
    rw [repeated?]
    by_cases hc : c.name.name ∈ seen
    · rw [if_pos (List.contains_iff_mem.mpr hc)]
      simp [hc]
    · rw [if_neg (by simpa using hc), ih]
      simp only [List.map_cons, List.nodup_cons, List.mem_cons, forall_eq_or_imp, not_or,
        List.mem_map, not_exists, not_and]
      constructor
      · rintro ⟨hnodup, hcs⟩
        exact ⟨⟨fun d hd => (hcs d hd).1, hnodup⟩, hc, fun d hd => (hcs d hd).2⟩
      · rintro ⟨⟨hne, hnodup⟩, -, hcs⟩
        exact ⟨hnodup, fun d hd => ⟨hne d hd, hcs d hd⟩⟩

/-- No class is declared twice just if all names differ from each other and from that of the
built-in class. -/
theorem distinctNames_iff {cs : List ClassDecl} :
    repeated? [ioClass] cs = none ↔ (ioClass :: cs.map (·.name.name)).Nodup := by
  rw [repeated?_eq_none_iff, List.nodup_cons, and_comm]
  simp

/-- Classes are entered just if each of them is. -/
theorem declareClasses_eq_ok_iff {known : List String} {cs : List ClassDecl}
    {es : List ClassEntry} : declareClasses known cs = .ok es ↔
      List.Forall₂ (fun c e => declareClass known c = .ok e) cs es := by
  induction cs generalizing es with
  | nil => simp [declareClasses, eq_comm]
  | cons c cs ih =>
    simp only [declareClasses, bind_eq_ok_iff, List.forall₂_cons_left_iff]
    refine exists_congr fun e => ⟨?_, ?_⟩
    · rintro ⟨he, es', hes', hes⟩
      cases hes
      exact ⟨es', he, ih.mp hes', rfl⟩
    · rintro ⟨es', he, hes', rfl⟩
      exact ⟨he, es', ih.mpr hes', rfl⟩

private theorem exists_declareClasses_iff {known : List String} {cs : List ClassDecl} :
    (∃ es, declareClasses known cs = .ok es) ↔
      ∀ c ∈ cs, ∃ e, declareClass known c = .ok e := by
  induction cs with
  | nil => simp [declareClasses]
  | cons c cs ih =>
    rw [List.forall_mem_cons, ← ih]
    simp only [declareClasses, bind_eq_ok_iff]
    constructor
    · rintro ⟨_, e, he, es, hes, -⟩
      exact ⟨⟨e, he⟩, es, hes⟩
    · rintro ⟨⟨e, he⟩, es, hes⟩
      exact ⟨_, e, he, es, hes, rfl⟩

/-- A class can be entered just if its parent is known and its declarations get along. -/
theorem exists_declareClass_iff {known : List String} {c : ClassDecl} :
    (∃ e, declareClass known c = .ok e) ↔
      (∀ parent, c.parent = some parent → parent.name ∈ known) ∧
        c.declarations.Pairwise Declaration.Coexist := by
  simp only [declareClass_eq_ok_iff, exists_and_left]
  rw [(ClassEntry.records_bare _ _).exists_declares_iff]
  simp

/-- A table is built just if class names are distinct and all classes can be entered. -/
theorem build_eq_ok_iff {p : Program} {t : ClassTable} :
    build p = .ok t ↔ (ioClass :: p.classes.map (·.name.name)).Nodup ∧
      ∃ es, declareClasses (ioClass :: p.classes.map (·.name.name)) p.classes = .ok es ∧
        t = ⟨ioEntry :: es, p.classes.any fun c => c.members.any isEntryPoint⟩ := by
  have hnames := @distinctNames_iff p.classes
  unfold build
  cases hr : repeated? [ioClass] p.classes with
  | some c =>
    have : ¬ (ioClass :: p.classes.map (·.name.name)).Nodup := by
      simp [← hnames, hr]
    simp [this]
  | none =>
    simp only [hnames.mp hr, true_and, bind_eq_ok_iff]
    refine exists_congr fun es => and_congr_right fun _ => ⟨?_, ?_⟩
    · intro h
      cases h
      rfl
    · rintro rfl
      rfl

/-- The table can be built exactly if class names are distinct, the classes that are extended
exist, and the declarations of every class get along. -/
theorem exists_build_iff {p : Program} : (∃ t, build p = .ok t) ↔
    (ioClass :: p.classes.map (·.name.name)).Nodup ∧
      (∀ c ∈ p.classes, ∀ parent, c.parent = some parent →
        parent.name = ioClass ∨ ∃ d ∈ p.classes, d.name.name = parent.name) ∧
      ∀ c ∈ p.classes, c.declarations.Pairwise Declaration.Coexist := by
  simp only [build_eq_ok_iff, exists_and_left]
  refine and_congr_right fun _ => ?_
  rw [exists_comm]
  simp only [exists_and_left, exists_eq, and_true]
  rw [exists_declareClasses_iff, ← forall₂_and]
  refine forall₂_congr fun c _ => ?_
  rw [exists_declareClass_iff]
  simp [List.mem_cons, List.mem_map]

/-- A class is found among the entries just if it is among the declared ones, with what it declares.
-/
theorem find?_of_declareClasses {known : List String} {cs : List ClassDecl}
    {es : List ClassEntry} (h : declareClasses known cs = .ok es) (name : String) :
    (es.find? (·.name = name)).map ClassEntry.view =
      (cs.find? (·.name.name = name)).map ClassDecl.view := by
  replace h := declareClasses_eq_ok_iff.mp h
  induction h with
  | nil => rfl
  | @cons c e cs es he _ ih =>
    obtain ⟨hname, hview⟩ := ClassEntry.view_of_declares (declareClass_eq_ok_iff.mp he).2
    by_cases hc : c.name.name = name
    · rw [List.find?_cons_of_pos (by simp [hname, hc]), List.find?_cons_of_pos (by simp [hc])]
      exact congrArg some hview
    · rw [List.find?_cons_of_neg (by simp [hname, hc]), List.find?_cons_of_neg (by simp [hc])]
      exact ih

/-- A table names the classes that the program declares, with what they declare. -/
theorem classes_of_build {p : Program} {t : ClassTable} (h : build p = .ok t) :
    t.classes = p.declared := by
  obtain ⟨-, es, hes, rfl⟩ := build_eq_ok_iff.mp h
  funext name
  unfold classes get? Program.declared
  by_cases hio : name = ioClass
  · rw [if_pos hio, List.find?_cons_of_pos (by simp [hio, ioEntry])]
    rfl
  · rw [if_neg hio, List.find?_cons_of_neg (by simp [ioEntry, Ne.symm hio])]
    exact find?_of_declareClasses hes name

/-- The class that a class extends is in the table too. -/
theorem contains_of_parent? {p : Program} {t : ClassTable} (h : build p = .ok t) {c d : String}
    (hp : t.parent? c = some d) : t.contains d = true := by
  obtain ⟨-, hparents, -⟩ := exists_build_iff.mp ⟨t, h⟩
  obtain ⟨v, hv, hparent⟩ := (t.extends_iff c d).mpr hp
  rw [classes_of_build h] at hv
  rw [← isSome_classes, classes_of_build h, Program.isSome_declared_iff]
  unfold Program.declared at hv
  split at hv
  · cases hv
    cases hparent
  · obtain ⟨e, hfind, rfl⟩ := Option.map_eq_some_iff.mp hv
    obtain ⟨id, hid, rfl⟩ := Option.map_eq_some_iff.mp hparent
    exact hparents e (List.mem_of_find?_eq_some hfind) id hid

private theorem isEntryPoint_iff {m : Member} : isEntryPoint m = true ↔
    ∃ decl span, m = .method decl span ∧ decl.name = mainName ∧ decl.isStatic = true ∧
      decl.params = [] ∧ decl.result = none := by
  cases m with
  | method decl span =>
    simp only [isEntryPoint, Bool.and_eq_true, decide_eq_true_eq, List.isEmpty_iff,
      Option.isNone_iff_eq_none, and_assoc]
    constructor
    · exact fun h => ⟨decl, span, rfl, h⟩
    · rintro ⟨_, _, hm, h⟩
      cases hm
      exact h
  | _ => simp [isEntryPoint]

/-- A table has an entry point just if the program declares a method to start with. -/
theorem hasEntryPoint_iff {p : Program} {t : ClassTable} (h : build p = .ok t) :
    t.hasEntryPoint = true ↔ ∃ c ∈ p.classes, ∃ decl span, .method decl span ∈ c.members ∧
      decl.name = mainName ∧ decl.isStatic = true ∧ decl.params = [] ∧ decl.result = none := by
  obtain ⟨-, es, -, rfl⟩ := build_eq_ok_iff.mp h
  simp only [List.any_eq_true, isEntryPoint_iff]
  refine exists_congr fun c => and_congr_right fun _ => ⟨?_, ?_⟩
  · rintro ⟨_, hm, decl, span, rfl, hmain⟩
    exact ⟨decl, span, hm, hmain⟩
  · rintro ⟨decl, span, hm, hmain⟩
    exact ⟨_, hm, decl, span, rfl, hmain⟩

end ClassTable

end ClassCheck
