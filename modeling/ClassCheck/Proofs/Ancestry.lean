import ClassCheck.Proofs.TableFaults
import Mathlib.Data.List.Chain
import Mathlib.Data.List.Nodup

/-!
# Ancestors and what is inherited from them

Two walks follow the parents of a class: one lists the ancestors and the other looks for a given
class, and each has its own way to notice that it is back at a class it has seen. In a table that
could be built both come to the same classes, those that some number of steps from parent to
parent leads to, also where classes extend each other in a circle. Neither walk runs out of
steps. A class has every member that its ancestors have, from the first of them that declares one
of the kind.
-/

namespace ClassCheck

namespace Classes

variable {K : Classes} {α : Type} {own : ClassView → Option α}

/-- A member comes from a class that is inherited from. -/
theorem Nearest.inherits {c owner : String} {a : α} (h : K.Nearest own c owner a) :
    K.Inherits c owner := by
  induction h with
  | here _ _ => exact .refl
  | above hv _ hp _ ih => exact .head ⟨_, hv, hp⟩ ih

/-- A class has a member of a kind if a class has one that it inherits from. -/
theorem Inherits.exists_nearest {sub sup : String} (h : K.Inherits sub sup)
    (hsup : ∃ owner a, K.Nearest own sup owner a) : ∃ owner a, K.Nearest own sub owner a := by
  induction h using Relation.ReflTransGen.head_induction_on with
  | refl => exact hsup
  | @head c d hstep _ ih =>
    obtain ⟨v, hv, hp⟩ := hstep
    obtain ⟨owner, a, hd⟩ := ih
    cases ho : own v with
    | some b => exact ⟨c, b, .here hv ho⟩
    | none => exact ⟨owner, a, .above hv ho hp hd⟩

end Classes

namespace ClassTable

/-! ## Ancestors in order -/

section

variable {t : ClassTable} {seen : List String} {c : String} {es : List ClassEntry}

/-- A chain starts with the class it starts from, unless it is empty. -/
theorem Chain.name_of_head? (h : t.Chain seen c es) {e : ClassEntry} (he : e ∈ es.head?) :
    e.name = c := by
  cases h with
  | unknown | again => cases he
  | top hg | next hg =>
    obtain rfl := Option.some.inj he
    exact name_of_get? hg

/-- The ancestors of a class start with the class. -/
theorem head?_ancestry (hc : t.contains c = true) :
    (t.ancestry c).head?.map (·.name) = some c := by
  have hmem := mem_ancestry_self hc
  cases hhead : (t.ancestry c).head? with
  | none =>
    rw [List.head?_eq_none_iff.mp hhead] at hmem
    cases hmem
  | some e => rw [Option.map_some, (t.chain_ancestry c).name_of_head? hhead]

/-- Each class on a chain is the parent of the one before. -/
theorem Chain.isChain (h : t.Chain seen c es) :
    es.IsChain fun e e' => e.parent = some e'.name := by
  induction h with
  | unknown | again => exact .nil
  | top => exact .singleton _
  | next _ _ hp hrest ih =>
    rw [List.isChain_cons]
    refine ⟨?_, ih⟩
    intro e' he'
    rw [hrest.name_of_head? he', hp]

/-- The classes on a chain are distinct, and none was seen before. -/
theorem Chain.nodup (h : t.Chain seen c es) :
    (es.map (·.name)).Nodup ∧ ∀ name ∈ es.map (·.name), name ∉ seen := by
  induction h with
  | unknown | again => exact ⟨List.nodup_nil, List.forall_mem_nil _⟩
  | top hg hnew =>
    rw [List.map_singleton, name_of_get? hg]
    exact ⟨List.nodup_singleton _, by simpa using hnew⟩
  | @next seen c d e es hg hnew _ _ ih =>
    obtain ⟨hnodup, hfresh⟩ := ih
    rw [List.map_cons, name_of_get? hg, List.nodup_cons, List.forall_mem_cons]
    refine ⟨⟨?_, hnodup⟩, hnew, ?_⟩
    · intro hc
      exact hfresh c hc List.mem_cons_self
    · intro name hn hseen
      exact hfresh name hn (List.mem_cons_of_mem c hseen)

/-- Every class on a chain is inherited from. -/
theorem Chain.inherits (h : t.Chain seen c es) {e : ClassEntry} (he : e ∈ es) :
    t.classes.Inherits c e.name := by
  induction h with
  | unknown | again => cases he
  | top hg =>
    obtain rfl := List.mem_singleton.mp he
    rw [name_of_get? hg]
    exact .refl
  | next hg _ hp _ ih =>
    rcases List.mem_cons.mp he with rfl | he
    · rw [name_of_get? hg]
      exact .refl
    · exact .head ⟨_, classes_of_get? hg, hp⟩ (ih he)

end

/-! ## Tables that could be built -/

/-- A class is a subclass of another if steps from parent to parent lead there. -/
theorem isSubclass_iff_reflTransGen (t : ClassTable) (sub sup : String) :
    t.isSubclass sub sup = true ↔
      Relation.ReflTransGen (fun c d => t.parent? c = some d) sub sup := by
  have hstep : t.classes.Extends = fun c d => t.parent? c = some d := by
    ext c d
    exact t.extends_iff c d
  rw [isSubclass_iff, Classes.Inherits, hstep]

/-- A list of classes is the line of ancestors of a class. -/
structure IsLine (t : ClassTable) (c : String) (line : List ClassEntry) : Prop where
  /-- It starts with the class. -/
  start : line.head?.map (·.name) = some c
  /-- Its classes are those that the table has under their names. -/
  entries : ∀ e ∈ line, t.get? e.name = some e
  /-- Each class after the first is the parent of the one before. -/
  parents : line.IsChain fun e e' => e.parent = some e'.name
  /-- No class comes twice. -/
  distinct : (line.map (·.name)).Nodup
  /-- Its classes are those that the class is a subclass of. -/
  complete : ∀ d, d ∈ line.map (·.name) ↔ t.isSubclass c d = true

section

variable {p : Program} {t : ClassTable} (h : build p = .ok t)

include h

/-- The built-in class and those of the program make up a table. -/
theorem length_entries_of_build : t.entries.length = p.classes.length + 1 := by
  obtain ⟨-, es, hes, rfl⟩ := build_eq_ok_iff.mp h
  rw [List.length_cons, (declareClasses_eq_ok_iff.mp hes).length_eq]

/-- The ancestors of a class are those that it is a subclass of. -/
theorem mem_ancestry_iff {c : String} (hc : t.contains c = true) (d : String) :
    d ∈ (t.ancestry c).map (·.name) ↔ t.isSubclass c d = true := by
  rw [isSubclass_iff]
  constructor
  · intro hd
    obtain ⟨e, he, rfl⟩ := List.mem_map.mp hd
    exact (t.chain_ancestry c).inherits he
  · intro hd
    induction hd with
    | refl => exact mem_ancestry_self hc
    | @tail d d' _ hstep ih =>
      obtain ⟨e, he, rfl⟩ := List.mem_map.mp ih
      have hp := (t.extends_iff e.name d').mp hstep
      have hparent : e.parent = some d' := by
        rw [← hp, parent?, (t.chain_ancestry c).get?_of_mem he, Option.bind_some]
      exact ancestry_closed he hparent (contains_of_parent? h hp)

/-- The line of ancestors of a class is one. -/
theorem isLine_ancestry {c : String} (hc : t.contains c = true) : t.IsLine c (t.ancestry c) where
  start := head?_ancestry hc
  entries _ he := (t.chain_ancestry c).get?_of_mem he
  parents := (t.chain_ancestry c).isChain
  distinct := (t.chain_ancestry c).nodup.1
  complete := mem_ancestry_iff h hc

/-- The built-in class extends none. -/
theorem length_heirs_of_build : t.heirs.length ≤ p.classes.length := by
  obtain ⟨-, es, hes, rfl⟩ := build_eq_ok_iff.mp h
  rw [heirs, List.length_map, List.filter_cons_of_neg (by simp [ioEntry]),
    (declareClasses_eq_ok_iff.mp hes).length_eq]
  exact List.length_filter_le _ _

/-- With as many steps as the program has classes, the walk along the ancestors ends, and more
steps change nothing. -/
theorem chain?_eq_ancestry {steps : Nat} (hsteps : p.classes.length ≤ steps) (c : String) :
    t.chain? steps [] c = some (t.ancestry c) := by
  obtain ⟨es, hes⟩ : ∃ es, t.chain? steps [] c = some es :=
    exists_chain? List.nodup_nil (List.nil_subset _) ((length_heirs_of_build h).trans hsteps)
  rw [hes, (chain_of_chain? hes).unique (t.chain_ancestry c)]

/-- With as many steps as the program has classes, the search for a class ends, and more steps
change nothing. -/
theorem reaches?_eq_isSubclass {steps : Nat} (hsteps : p.classes.length ≤ steps) (c d : String) :
    t.reaches? d steps [] c = some (t.isSubclass c d) := by
  obtain ⟨answer, hanswer⟩ : ∃ answer, t.reaches? d steps [] c = some answer :=
    exists_reaches? List.nodup_nil (List.nil_subset _) ((length_heirs_of_build h).trans hsteps)
  rw [hanswer, Option.some.injEq, Bool.eq_iff_iff, isSubclass_iff]
  exact (inherits_iff_of_reaches? hanswer).symm

/-- A class is a subclass of those that steps from parent to parent lead to, and its ancestors are
these classes in order. Neither walk needs more steps than the program has classes: with as many
steps, or more, it comes to its end and has an answer. -/
theorem ancestry_lists_superclasses :
    (∀ a b, t.isSubclass a b = true ↔
      Relation.ReflTransGen (fun c d => t.parent? c = some d) a b) ∧
    (∀ a, t.isSubclass a a = true) ∧
    (∀ a b c, t.isSubclass a b = true → t.isSubclass b c = true → t.isSubclass a c = true) ∧
    (∀ a, t.contains a = true → t.IsLine a (t.ancestry a)) ∧
    t.entries.length = p.classes.length + 1 ∧
    ∀ a steps, p.classes.length ≤ steps →
      t.chain? steps [] a = some (t.ancestry a) ∧
      ∀ b, t.reaches? b steps [] a = some (t.isSubclass a b) := by
  refine ⟨t.isSubclass_iff_reflTransGen, ?_, ?_, fun a => isLine_ancestry h,
    length_entries_of_build h, ?_⟩
  · intro a
    rw [isSubclass_iff_reflTransGen]
  · intro a b c hab hbc
    rw [isSubclass_iff_reflTransGen] at hab hbc ⊢
    exact hab.trans hbc
  · intro a steps hsteps
    exact ⟨chain?_eq_ancestry h hsteps a, reaches?_eq_isSubclass h hsteps a⟩

end

/-- Two classes that extend each other, one that extends one of them, and one that extends
itself. -/
def ringProgram : Program :=
  ⟨[⟨⟨"Chick", ⟨6, 11⟩⟩, some ⟨"Egg", ⟨20, 23⟩⟩, [], ⟨0, 26⟩⟩,
    ⟨⟨"Hen", ⟨33, 36⟩⟩, some ⟨"Egg", ⟨45, 48⟩⟩, [], ⟨27, 51⟩⟩,
    ⟨⟨"Egg", ⟨58, 61⟩⟩, some ⟨"Hen", ⟨70, 73⟩⟩, [], ⟨52, 76⟩⟩,
    ⟨⟨"Stone", ⟨83, 88⟩⟩, some ⟨"Stone", ⟨97, 102⟩⟩, [], ⟨77, 105⟩⟩], ⟨0, 105⟩⟩

/-- The table of these classes. -/
def ringTable : ClassTable where
  entries := [ioEntry, .bare "Chick" (some "Egg"), .bare "Hen" (some "Egg"),
    .bare "Egg" (some "Hen"), .bare "Stone" (some "Stone")]
  hasEntryPoint := false

/-- The walks end also on the circle: the ancestors come once each, and nothing leads from the
circle back to the class that only extends into it. -/
theorem ring_ancestors : build ringProgram = .ok ringTable ∧
    ringTable.IsLine "Chick" (ringTable.ancestry "Chick") ∧
    (ringTable.ancestry "Chick").map (·.name) = ["Chick", "Egg", "Hen"] ∧
    ringTable.isSubclass "Chick" "Hen" = true ∧ ringTable.isSubclass "Hen" "Chick" = false ∧
    ringTable.reaches? "Chick" 4 [] "Hen" = some false ∧
    ringTable.chain? 4 [] "Stone" = some [.bare "Stone" (some "Stone")] := by
  have hbuilt : build ringProgram = .ok ringTable := by decide +kernel
  obtain ⟨-, -, htrans, hline, -, hsteps⟩ := ancestry_lists_superclasses hbuilt
  have hhen : ringTable.isSubclass "Hen" "Chick" = false := by decide +kernel
  have hstone : ringTable.ancestry "Stone" = [.bare "Stone" (some "Stone")] := by decide +kernel
  refine ⟨hbuilt, hline "Chick" (by decide +kernel), by decide +kernel, ?_, hhen, ?_, ?_⟩
  · exact htrans "Chick" "Egg" "Hen" (by decide +kernel) (by decide +kernel)
  · rw [(hsteps "Hen" 4 (by decide)).2, hhen]
  · rw [(hsteps "Stone" 4 (by decide)).1, hstone]

/-! ## Members of ancestors -/

end ClassTable

/-- A class of the program, or the built-in class, declares an attribute or a method itself. -/
def Program.Declares (p : Program) (c name : String) (member : ValueMember) : Prop :=
  (∃ d ∈ p.classes, d.name.name = c ∧ ⟨name, .value member⟩ ∈ d.declarations) ∨
    c = ioClass ∧ (ClassTable.ioEntry.slotOf name).value = some member

private theorem ClassEntry.attribute?_eq_some_iff (e : ClassEntry) (name : String)
    (info : AttributeInfo) :
    e.attribute? name = some info ↔ (e.slotOf name).value = some (.attribute info) := by
  unfold attribute?
  split <;> simp_all

private theorem ClassEntry.method?_eq_some_iff (e : ClassEntry) (name : String)
    (signature : Signature) :
    e.method? name = some signature ↔ (e.slotOf name).value = some (.method signature) := by
  unfold method?
  split <;> simp_all

namespace ClassTable

/-- A search for members of one kind finds what a class has from its ancestors. -/
structure FindsInherited {α : Type} (t : ClassTable) (declares : String → α → Prop)
    (find : String → Option (String × α)) : Prop where
  /-- A class has a member if a class has one that it is a subclass of. -/
  kept : ∀ sub sup, t.isSubclass sub sup = true → (find sup).isSome = true →
    (find sub).isSome = true
  /-- The class that a member comes from is an ancestor, and declares it itself. -/
  owner : ∀ {c o a}, find c = some (o, a) → t.isSubclass c o = true ∧ declares o a
  /-- Among the ancestors it is the first one that declares a member of this kind, whatever else
  those before it declare. -/
  first : ∀ {c o a}, find c = some (o, a) ↔ ∃ before e after,
    t.ancestry c = before ++ e :: after ∧ e.name = o ∧ declares o a ∧
      ∀ d ∈ before, ∀ b, ¬ declares d.name b

/-- The search along the ancestors, for a kind of member that entries hold as declared. -/
theorem findsInherited_ancestry {t : ClassTable} {α : Type} {own : ClassView → Option α}
    {declares : String → α → Prop}
    (hown : ∀ {e a}, t.get? e.name = some e → (own e.view = some a ↔ declares e.name a)) :
    t.FindsInherited declares
      fun c => (t.ancestry c).findSome? fun e => (own e.view).map (e.name, ·) where
  kept sub sup hsub hfound := by
    obtain ⟨⟨o, a⟩, hf⟩ := Option.isSome_iff_exists.mp hfound
    rw [findSome?_ancestry_eq_some_iff] at hf
    obtain ⟨o', a', hn⟩ := ((t.isSubclass_iff sub sup).mp hsub).exists_nearest ⟨o, a, hf⟩
    rw [(t.findSome?_ancestry_eq_some_iff own sub o' a').mpr hn]
    rfl
  owner {c o a} hf := by
    rw [findSome?_ancestry_eq_some_iff] at hf
    refine ⟨(t.isSubclass_iff c o).mpr hf.inherits, ?_⟩
    obtain ⟨v, hv, ho⟩ := hf.owner_declares
    obtain ⟨e, hg, rfl⟩ := Option.map_eq_some_iff.mp hv
    obtain rfl := name_of_get? hg
    exact (hown hg).mp ho
  first {c o a} := by
    rw [List.findSome?_eq_some_iff]
    refine exists_congr fun before => exists_congr fun e => exists_congr fun after =>
      and_congr_right fun hline => ?_
    have hget : ∀ d ∈ before ++ e :: after, t.get? d.name = some d := by
      intro d hd
      rw [← hline] at hd
      exact (t.chain_ancestry c).get?_of_mem hd
    have hfound : (own e.view).map (e.name, ·) = some (o, a) ↔ e.name = o ∧ declares o a := by
      rw [Option.map_eq_some_iff]
      constructor
      · rintro ⟨b, hb, heq⟩
        obtain ⟨rfl, rfl⟩ := Prod.mk.inj heq
        exact ⟨rfl, (hown (hget e (by simp))).mp hb⟩
      · rintro ⟨rfl, hdeclares⟩
        exact ⟨a, (hown (hget e (by simp))).mpr hdeclares, rfl⟩
    have hpassed : ∀ d ∈ before, ((own d.view).map (d.name, ·) = none ↔
        ∀ b, ¬ declares d.name b) := by
      intro d hd
      rw [Option.map_eq_none_iff, Option.eq_none_iff_forall_ne_some]
      exact forall_congr' fun b => not_congr (hown (hget d (by simp [hd])))
    rw [hfound, and_assoc, forall₂_congr hpassed]

section

variable {p : Program} {t : ClassTable} (h : build p = .ok t)

include h

/-- An entry holds the attributes and methods that its class declares. -/
theorem value_eq_some_iff_declares {e : ClassEntry} (hg : t.get? e.name = some e) (name : String)
    (member : ValueMember) :
    (e.slotOf name).value = some member ↔ p.Declares e.name name member := by
  have hrep := represents_of_build h
  have hnodup := (build_eq_ok_iff.mp h).1
  rcases (hrep.contains e.name).mp (Option.isSome_of_eq_some hg) with hio | ⟨c, hc, hname⟩
  · rw [hio] at hg
    obtain rfl := Option.some.inj (hrep.builtin.symm.trans hg)
    constructor
    · exact fun hvalue => Or.inr ⟨rfl, hvalue⟩
    · rintro (⟨d, hd, hdname, -⟩ | ⟨-, hvalue⟩)
      · exact absurd (List.mem_map.mpr ⟨d, hd, hdname⟩) (List.nodup_cons.mp hnodup).1
      · exact hvalue
  · obtain ⟨e', hg', he'⟩ := hrep.entries c hc
    rw [hname] at hg'
    obtain rfl := Option.some.inj (hg'.symm.trans hg)
    rw [he'.value]
    constructor
    · exact fun hdecl => Or.inl ⟨c, hc, hname, hdecl⟩
    · rintro (⟨d, hd, hdname, hdecl⟩ | ⟨hio, -⟩)
      · have hsame : d = c :=
          List.inj_on_of_nodup_map (List.nodup_cons.mp hnodup).2 hd hc (hdname.trans hname.symm)
        rwa [← hsame]
      · have hmem := List.mem_map_of_mem (f := fun d : ClassDecl => d.name.name) hc
        rw [hname, hio] at hmem
        exact absurd hmem (List.nodup_cons.mp hnodup).1

/-- The constructor of a class is the one that the class declares under its own name. -/
theorem ctor?_eq_some_iff (c : String) (signature : Signature) :
    t.ctor? c = some signature ↔
      ∃ d ∈ p.classes, d.name.name = c ∧ ⟨c, .ctor signature⟩ ∈ d.declarations := by
  have hrep := represents_of_build h
  constructor
  · intro hctor
    obtain ⟨e, hg, hslot⟩ := Option.bind_eq_some_iff.mp hctor
    rcases (hrep.contains c).mp (Option.isSome_of_eq_some hg) with rfl | ⟨d, hd, rfl⟩
    · -- The built-in class has no constructor.
      obtain rfl := Option.some.inj (hrep.builtin.symm.trans hg)
      cases hslot
    · obtain ⟨e', hg', he'⟩ := hrep.entries d hd
      obtain rfl := Option.some.inj (hg'.symm.trans hg)
      exact ⟨d, hd, rfl, (he'.ctor _ _).mp hslot⟩
  · rintro ⟨d, hd, rfl, hdecl⟩
    obtain ⟨e, hg, he⟩ := hrep.entries d hd
    rw [ctor?, hg, Option.bind_some]
    exact (he.ctor _ _).mpr hdecl

/-- Attributes and methods are inherited, each from the first ancestor that declares one; a
constructor is not, whatever the ancestors declare. -/
theorem members_found_in_first_ancestor :
    (∀ name, t.FindsInherited (fun c info => p.Declares c name (.attribute info))
      (t.findAttribute? · name)) ∧
    (∀ name, t.FindsInherited (fun c signature => p.Declares c name (.method signature))
      (t.findMethod? · name)) ∧
    ∀ c signature, t.ctor? c = some signature ↔
      ∃ d ∈ p.classes, d.name.name = c ∧ ⟨c, .ctor signature⟩ ∈ d.declarations := by
  refine ⟨fun name => ?_, fun name => ?_, ctor?_eq_some_iff h⟩
  · refine @findsInherited_ancestry t AttributeInfo (·.attributes name) _ fun {e info} hg => ?_
    rw [← value_eq_some_iff_declares h hg]
    exact e.attribute?_eq_some_iff name info
  · refine @findsInherited_ancestry t Signature (·.methods name) _ fun {e signature} hg => ?_
    rw [← value_eq_some_iff_declares h hg]
    exact e.method?_eq_some_iff name signature

end

/-- Three classes under one name: the last has a constructor and a destructor of that name, the
one above it a method, and the one above that an attribute. The upper two extend each other. -/
def sizesProgram : Program :=
  ⟨[⟨⟨"Shelf", ⟨6, 11⟩⟩, some ⟨"Rack", ⟨20, 24⟩⟩,
      [.attribute ⟨false, false, .primitive .int ⟨26, 29⟩, [⟨"size", none, ⟨30, 34⟩⟩]⟩ ⟨26, 35⟩],
      ⟨0, 36⟩⟩,
    ⟨⟨"Rack", ⟨43, 47⟩⟩, some ⟨"Shelf", ⟨56, 61⟩⟩,
      [.method ⟨false, none, "size", [], ⟨[], ⟨75, 77⟩⟩⟩ ⟨63, 77⟩,
        .ctor ⟨"Rack", [], ⟨[], ⟨85, 87⟩⟩⟩ ⟨78, 87⟩], ⟨37, 88⟩⟩,
    ⟨⟨"Case", ⟨95, 99⟩⟩, some ⟨"Rack", ⟨108, 112⟩⟩,
      [.ctor ⟨"size", [], ⟨[], ⟨121, 123⟩⟩⟩ ⟨114, 123⟩,
        .dtor ⟨"size", ⟨[], ⟨132, 134⟩⟩⟩ ⟨124, 134⟩], ⟨89, 135⟩⟩], ⟨0, 135⟩⟩

/-- The table of these classes. -/
def sizesTable : ClassTable where
  entries := [ioEntry,
    ⟨"Shelf", some "Rack",
      [("size", ⟨some (.attribute ⟨.int, false, false, false⟩), none, false⟩)]⟩,
    ⟨"Rack", some "Shelf", [
      ("Rack", ⟨none, some ⟨some (.object "Rack"), [], false⟩, false⟩),
      ("size", ⟨some (.method ⟨none, [], false⟩), none, false⟩)]⟩,
    ⟨"Case", some "Rack", [("size", ⟨none, some ⟨some (.object "Case"), [], false⟩, true⟩)]⟩]
  hasEntryPoint := false

/-- The last class has the attribute from the one class and the method from the other, and no
constructor from either. -/
theorem sizes_found : build sizesProgram = .ok sizesTable ∧
    (sizesTable.findAttribute? "Rack" "size").isSome = true ∧
    sizesTable.findAttribute? "Case" "size" = some ("Shelf", ⟨.int, false, false, false⟩) ∧
    sizesProgram.Declares "Shelf" "size" (.attribute ⟨.int, false, false, false⟩) ∧
    sizesTable.isSubclass "Case" "Rack" = true ∧
    sizesTable.findMethod? "Case" "size" = some ("Rack", ⟨none, [], false⟩) ∧
    sizesTable.ctor? "Rack" = some ⟨some (.object "Rack"), [], false⟩ ∧
    ¬ ∃ d ∈ sizesProgram.classes, d.name.name = "Case" ∧
      ⟨"Case", .ctor ⟨some (.object "Rack"), [], false⟩⟩ ∈ d.declarations := by
  have hbuilt : build sizesProgram = .ok sizesTable := by decide +kernel
  obtain ⟨hattributes, hmethods, hctors⟩ := members_found_in_first_ancestor hbuilt
  have hfound : sizesTable.findAttribute? "Case" "size" =
      some ("Shelf", ⟨.int, false, false, false⟩) := by decide +kernel
  have hmethod : sizesTable.findMethod? "Case" "size" = some ("Rack", ⟨none, [], false⟩) := by
    decide +kernel
  have hctor : sizesTable.ctor? "Case" = none := by decide +kernel
  refine ⟨hbuilt, ?_, hfound, ((hattributes "size").owner hfound).2,
    ((hmethods "size").owner hmethod).1, hmethod, by decide +kernel, ?_⟩
  · exact (hattributes "size").kept "Rack" "Shelf" (by decide +kernel) (by decide +kernel)
  · simp [← hctors, hctor]

end ClassTable

end ClassCheck
