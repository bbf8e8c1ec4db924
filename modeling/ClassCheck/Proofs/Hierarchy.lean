import ClassCheck.Classes.Hierarchy
import Mathlib.Data.List.Perm.Subperm
import Mathlib.Logic.Relation

/-!
# Ancestors and inherited members, declaratively

A class table is read as a partial function from names to what the class itself declares. A
class inherits from another if a chain of `extends` leads there, however often the chain runs
through a circle, and it has a member from the nearest class of its chain that declares one. The
walks of the table stop when they come to a class for the second time. They miss nothing: the
classes that a walk has left for their parents are distinct, so it ends before its steps are used
up, and when it ends the classes it has seen are closed under `extends`.
-/

namespace ClassCheck

/-- What a class itself declares: the class it extends, its attributes and methods by name, and
the constructor under its own name. -/
structure ClassView where
  /-- The class it extends. -/
  parent : Option String
  /-- The attributes by name. -/
  attributes : String → Option AttributeInfo
  /-- The methods by name. -/
  methods : String → Option Signature
  /-- The constructor. -/
  ctor : Option Signature

/-- The classes that can be named, each with what it declares. -/
abbrev Classes := String → Option ClassView

namespace Classes

/-- One class is declared to extend another. -/
def Extends (K : Classes) (sub sup : String) : Prop := ∃ v, K sub = some v ∧ v.parent = some sup

/-- A chain of declarations leads from one class to another, possibly of no length. -/
def Inherits (K : Classes) : String → String → Prop := Relation.ReflTransGen K.Extends

/-- The nearest class along the chain of a class that declares a member of some kind itself,
with that member. -/
inductive Nearest (K : Classes) {α : Type} (own : ClassView → Option α) :
    String → String → α → Prop
  /-- The class declares the member itself. -/
  | here {c : String} {v : ClassView} {a : α} : K c = some v → own v = some a → Nearest K own c c a
  /-- The class declares none, and the class it extends has the member. -/
  | above {c d owner : String} {v : ClassView} {a : α} : K c = some v → own v = none →
      v.parent = some d → Nearest K own d owner a → Nearest K own c owner a

section

variable {K : Classes} {α : Type} {own : ClassView → Option α}

/-- A class has at most one nearest member of a kind. -/
theorem Nearest.unique {c o₁ o₂ : String} {a₁ a₂ : α} (h₁ : K.Nearest own c o₁ a₁)
    (h₂ : K.Nearest own c o₂ a₂) : o₁ = o₂ ∧ a₁ = a₂ := by
  induction h₁ with
  | here hv ho =>
    cases h₂ with
    | here hv' ho' =>
      obtain rfl := Option.some.inj (hv.symm.trans hv')
      exact ⟨rfl, Option.some.inj (ho.symm.trans ho')⟩
    | above hv' ho' _ _ =>
      obtain rfl := Option.some.inj (hv.symm.trans hv')
      rw [ho] at ho'
      cases ho'
  | above hv ho hp _ ih =>
    cases h₂ with
    | here hv' ho' =>
      obtain rfl := Option.some.inj (hv.symm.trans hv')
      rw [ho] at ho'
      cases ho'
    | above hv' _ hp' hn' =>
      obtain rfl := Option.some.inj (hv.symm.trans hv')
      obtain rfl := Option.some.inj (hp.symm.trans hp')
      exact ih hn'

/-- The class that a member comes from declares it itself. -/
theorem Nearest.owner_declares {c o : String} {a : α} (h : K.Nearest own c o a) :
    ∃ v, K o = some v ∧ own v = some a := by
  induction h with
  | here hv ho => exact ⟨_, hv, ho⟩
  | above _ _ _ _ ih => exact ih

/-- A member is looked for only from a class that can be named. -/
theorem Nearest.isSome {c o : String} {a : α} (h : K.Nearest own c o a) :
    (K c).isSome = true := by
  cases h with
  | here hv _ => rw [hv]; rfl
  | above hv _ _ _ => rw [hv]; rfl

/-- Classes closed under `extends` that declare no member of a kind have none. -/
theorem not_nearest_of_closed {S : String → Prop}
    (hS : ∀ c v, S c → K c = some v → own v = none ∧ ∀ d, v.parent = some d → S d)
    {c o : String} {a : α} (hc : S c) : ¬ K.Nearest own c o a := by
  intro h
  induction h with
  | here hv ho =>
    have hnone := (hS _ _ hc hv).1
    rw [ho] at hnone
    cases hnone
  | above hv _ hp _ ih => exact ih ((hS _ _ hc hv).2 _ hp)

end

end Classes

/-- What the entry of a class says it declares itself. -/
def ClassEntry.view (e : ClassEntry) : ClassView :=
  ⟨e.parent, e.attribute?, e.method?, (e.slotOf e.name).ctor⟩

namespace ClassTable

/-- The classes of a table. -/
def classes (t : ClassTable) : Classes := fun name => (t.get? name).map ClassEntry.view

/-- The names of the classes in a table that extend another. -/
def heirs (t : ClassTable) : List String :=
  (t.entries.filter (·.parent.isSome)).map (·.name)

/-! ## Looking up classes -/

/-- A class is found under its own name. -/
theorem name_of_get? {t : ClassTable} {name : String} {e : ClassEntry}
    (h : t.get? name = some e) : e.name = name := by
  simpa using List.find?_some h

/-- The classes that can be named are those in the table. -/
theorem isSome_classes (t : ClassTable) (name : String) :
    (t.classes name).isSome = t.contains name := by
  rw [classes, contains, Option.isSome_map]

/-- A class that is found declares what its entry does. -/
theorem classes_of_get? {t : ClassTable} {name : String} {e : ClassEntry}
    (h : t.get? name = some e) : t.classes name = some e.view := by
  rw [classes, h, Option.map_some]

/-- A class extends another just if that is its parent in the table. -/
theorem extends_iff (t : ClassTable) (sub sup : String) :
    t.classes.Extends sub sup ↔ t.parent? sub = some sup := by
  unfold Classes.Extends parent? classes
  cases t.get? sub with
  | none => simp
  | some e => simp [ClassEntry.view]

/-- A class whose entry has a parent is one of those that extend another. -/
theorem mem_heirs_of_get? {t : ClassTable} {c d : String} {e : ClassEntry}
    (hg : t.get? c = some e) (hp : e.parent = some d) : c ∈ t.heirs := by
  refine List.mem_map.mpr ⟨e, List.mem_filter.mpr ⟨List.mem_of_find?_eq_some hg, ?_⟩,
    name_of_get? hg⟩
  rw [hp]
  rfl

/-- A class has a parent only if it extends one. -/
theorem mem_heirs_of_parent? {t : ClassTable} {c d : String} (h : t.parent? c = some d) :
    c ∈ t.heirs := by
  obtain ⟨e, hg, hp⟩ := Option.bind_eq_some_iff.mp h
  exact mem_heirs_of_get? hg hp

/-- There are no more heirs than entries. -/
theorem length_heirs_le (t : ClassTable) : t.heirs.length ≤ t.entries.length := by
  rw [heirs, List.length_map]
  exact List.length_filter_le _ _

/-- Distinct classes with a parent that leave out one of them are fewer than all. -/
theorem length_lt_of_not_mem {t : ClassTable} {seen : List String} {c : String}
    (hn : seen.Nodup) (hs : seen ⊆ t.heirs) (hc : c ∈ t.heirs) (hnew : c ∉ seen) :
    seen.length < t.heirs.length := by
  have hnodup : (c :: seen).Nodup := List.nodup_cons.mpr ⟨hnew, hn⟩
  have hsub : c :: seen ⊆ t.heirs := List.cons_subset.mpr ⟨hc, hs⟩
  exact (List.subperm_of_subset hnodup hsub).length_le

/-! ## The chain of parents -/

/-- The chain of parents from a class on, without the classes seen before. -/
inductive Chain (t : ClassTable) : List String → String → List ClassEntry → Prop
  /-- It is over at a name that is no class. -/
  | unknown {seen : List String} {c : String} : t.get? c = none → Chain t seen c []
  /-- It is over at a class that was seen before. -/
  | again {seen : List String} {c : String} : c ∈ seen → Chain t seen c []
  /-- Its last class extends none. -/
  | top {seen : List String} {c : String} {e : ClassEntry} : t.get? c = some e → c ∉ seen →
      e.parent = none → Chain t seen c [e]
  /-- Any other class is followed by the class it extends. -/
  | next {seen : List String} {c d : String} {e : ClassEntry} {es : List ClassEntry} :
      t.get? c = some e → c ∉ seen → e.parent = some d → Chain t (c :: seen) d es →
      Chain t seen c (e :: es)

/-- A walk that ends has found the chain. -/
theorem chain_of_chain? {t : ClassTable} {steps : Nat} {seen : List String} {c : String}
    {es : List ClassEntry} (h : t.chain? steps seen c = some es) : t.Chain seen c es := by
  fun_induction t.chain? steps seen c generalizing es with
  | case1 steps seen c hg =>
    cases h
    exact .unknown hg
  | case2 steps seen c e hg hseen =>
    cases h
    obtain rfl := name_of_get? hg
    exact .again (by simpa using hseen)
  | case3 steps seen c e hg hseen hp =>
    cases h
    obtain rfl := name_of_get? hg
    exact .top hg (by simpa using hseen) hp
  | case4 => cases h
  | case5 seen c e hg hseen d steps hp ih =>
    obtain rfl := name_of_get? hg
    obtain ⟨rest, hrest, rfl⟩ := Option.map_eq_some_iff.mp h
    exact .next hg (by simpa using hseen) hp (ih hrest)

/-- A walk ends if it has as many steps left as there are classes with a parent that it has not
seen. -/
theorem exists_chain? {t : ClassTable} {steps : Nat} {seen : List String} {c : String}
    (hn : seen.Nodup) (hs : seen ⊆ t.heirs) (hsteps : t.heirs.length ≤ steps + seen.length) :
    ∃ es, t.chain? steps seen c = some es := by
  fun_induction t.chain? steps seen c with
  | case1 | case2 | case3 => exact ⟨_, rfl⟩
  | case4 seen c e hg hseen d hp =>
    -- Every class with a parent has been seen, and this one has not.
    obtain rfl := name_of_get? hg
    have hlt := length_lt_of_not_mem hn hs (mem_heirs_of_get? hg hp) (by simpa using hseen)
    omega
  | case5 seen c e hg hseen d steps hp ih =>
    obtain rfl := name_of_get? hg
    obtain ⟨es, hes⟩ := ih (List.nodup_cons.mpr ⟨by simpa using hseen, hn⟩)
      (List.cons_subset.mpr ⟨mem_heirs_of_get? hg hp, hs⟩)
      (by rw [List.length_cons]; omega)
    exact ⟨_, by rw [hes, Option.map_some]⟩

/-- There is only one chain. -/
theorem Chain.unique {t : ClassTable} {seen : List String} {c : String} {es es' : List ClassEntry}
    (h : t.Chain seen c es) (h' : t.Chain seen c es') : es = es' := by
  induction h generalizing es' with
  | unknown hg =>
    cases h' with
    | unknown | again => rfl
    | top hg' | next hg' => cases hg.symm.trans hg'
  | again hseen =>
    cases h' with
    | unknown | again => rfl
    | top _ hnew | next _ hnew => exact absurd hseen hnew
  | top hg hnew hp =>
    cases h' with
    | unknown hg' => cases hg.symm.trans hg'
    | again hseen => exact absurd hseen hnew
    | top hg' => rw [Option.some.inj (hg.symm.trans hg')]
    | next hg' _ hp' =>
      obtain rfl := Option.some.inj (hg.symm.trans hg')
      cases hp.symm.trans hp'
  | next hg hnew hp _ ih =>
    cases h' with
    | unknown hg' => cases hg.symm.trans hg'
    | again hseen => exact absurd hseen hnew
    | top hg' _ hp' =>
      obtain rfl := Option.some.inj (hg.symm.trans hg')
      cases hp.symm.trans hp'
    | next hg' _ hp' hrest =>
      obtain rfl := Option.some.inj (hg.symm.trans hg')
      obtain rfl := Option.some.inj (hp.symm.trans hp')
      rw [ih hrest]

/-- A class and its ancestors are the chain from it. -/
theorem chain_ancestry (t : ClassTable) (c : String) : t.Chain [] c (t.ancestry c) := by
  obtain ⟨es, hes⟩ : ∃ es, t.chain? t.entries.length [] c = some es :=
    exists_chain? List.nodup_nil (List.nil_subset _) t.length_heirs_le
  rw [ancestry, hes, Option.getD_some]
  exact chain_of_chain? hes

section

variable {t : ClassTable} {seen : List String} {c : String} {es : List ClassEntry}
  (h : t.Chain seen c es)

include h

/-- The classes on a chain are those that the table has under their names. -/
theorem Chain.get?_of_mem {e : ClassEntry} (he : e ∈ es) : t.get? e.name = some e := by
  induction h with
  | unknown | again => cases he
  | top hg =>
    obtain rfl := List.mem_singleton.mp he
    rw [name_of_get? hg, hg]
  | next hg _ _ _ ih =>
    rcases List.mem_cons.mp he with rfl | he
    · rw [name_of_get? hg, hg]
    · exact ih he

/-- A class of the table stands on its own chain, unless it was seen before. -/
theorem Chain.mem_start (hc : t.contains c = true) : c ∈ es.map (·.name) ∨ c ∈ seen := by
  cases h with
  | unknown hg =>
    rw [contains, hg] at hc
    cases hc
  | again hseen => exact .inr hseen
  | top hg | next hg => exact .inl (List.mem_map.mpr ⟨_, List.mem_cons_self, name_of_get? hg⟩)

/-- The parent of each class on a chain is on it too, or was seen before, or is no class of the
table. -/
theorem Chain.closed {e : ClassEntry} (he : e ∈ es) {d : String} (hp : e.parent = some d)
    (hd : t.contains d = true) : d ∈ es.map (·.name) ∨ d ∈ seen := by
  induction h with
  | unknown | again => cases he
  | top _ _ hnone =>
    obtain rfl := List.mem_singleton.mp he
    cases hnone.symm.trans hp
  | @next seen c d' e' es hg _ hp' hrest ih =>
    have hbehind : d ∈ es.map (·.name) ∨ d ∈ c :: seen := by
      rcases List.mem_cons.mp he with rfl | he
      · obtain rfl := Option.some.inj (hp'.symm.trans hp)
        exact hrest.mem_start hd
      · exact ih he
    rw [List.map_cons, name_of_get? hg]
    rcases hbehind with hmem | hmem
    · exact .inl (List.mem_cons_of_mem _ hmem)
    · rcases List.mem_cons.mp hmem with rfl | hmem
      · exact .inl List.mem_cons_self
      · exact .inr hmem

end

/-- A class and all its ancestors are closed under `extends`, as far as the table knows. -/
theorem ancestry_closed {t : ClassTable} {c : String} {e : ClassEntry} (he : e ∈ t.ancestry c)
    {d : String} (hp : e.parent = some d) (hd : t.contains d = true) :
    d ∈ (t.ancestry c).map (·.name) :=
  ((t.chain_ancestry c).closed he hp hd).resolve_right List.not_mem_nil

/-- A class of the table is among its ancestors. -/
theorem mem_ancestry_self {t : ClassTable} {c : String} (hc : t.contains c = true) :
    c ∈ (t.ancestry c).map (·.name) :=
  ((t.chain_ancestry c).mem_start hc).resolve_right List.not_mem_nil

/-! ## Inherited members -/

/-- What the first class of a chain with a member of some kind declares is the nearest member. -/
theorem Chain.nearest_of_findSome? {t : ClassTable} {α : Type} {own : ClassView → Option α}
    {seen : List String} {c o : String} {a : α} {es : List ClassEntry} (h : t.Chain seen c es)
    (hfound : es.findSome? (fun e => (own e.view).map (e.name, ·)) = some (o, a)) :
    t.classes.Nearest own c o a := by
  induction h with
  | unknown | again => cases hfound
  | @top seen c e hg =>
    have hname := name_of_get? hg
    rw [List.findSome?_singleton] at hfound
    obtain ⟨b, hb, heq⟩ := Option.map_eq_some_iff.mp hfound
    obtain ⟨rfl, rfl⟩ := Prod.mk.inj heq
    rw [hname]
    exact .here (classes_of_get? hg) hb
  | @next seen c d e es hg _ hp _ ih =>
    have hname := name_of_get? hg
    rw [List.findSome?_cons] at hfound
    cases ho : own e.view with
    | none =>
      rw [ho] at hfound
      exact .above (classes_of_get? hg) ho hp (ih hfound)
    | some b =>
      rw [ho] at hfound
      obtain ⟨rfl, rfl⟩ := Prod.mk.inj (Option.some.inj hfound)
      rw [hname]
      exact .here (classes_of_get? hg) ho

/-- The search along the ancestors of a class finds exactly its nearest member of a kind. -/
theorem findSome?_ancestry_eq_some_iff (t : ClassTable) {α : Type}
    (own : ClassView → Option α) (c o : String) (a : α) :
    (t.ancestry c).findSome? (fun e => (own e.view).map (e.name, ·)) = some (o, a) ↔
      t.classes.Nearest own c o a := by
  have hchain := t.chain_ancestry c
  refine ⟨hchain.nearest_of_findSome?, ?_⟩
  intro h
  cases hf : (t.ancestry c).findSome? (fun e => (own e.view).map (e.name, ·)) with
  | some found =>
    obtain ⟨rfl, rfl⟩ := (hchain.nearest_of_findSome? hf).unique h
    rfl
  | none =>
    -- Then no ancestor declares the member, and the ancestors are closed under `extends`.
    rw [List.findSome?_eq_none_iff] at hf
    refine absurd h (Classes.not_nearest_of_closed
      (S := fun d => t.contains d = true → d ∈ (t.ancestry c).map (·.name)) ?_ mem_ancestry_self)
    intro d v hS hv
    have hd : t.contains d = true := by rw [← isSome_classes, hv]; rfl
    obtain ⟨e, he, hname⟩ := List.mem_map.mp (hS hd)
    have hg : t.get? d = some e := by rw [← hname]; exact hchain.get?_of_mem he
    obtain rfl := Option.some.inj (hv.symm.trans (classes_of_get? hg))
    refine ⟨by simpa using hf e he, ?_⟩
    intro d' hp hd'
    exact ancestry_closed he hp hd'

/-- The attribute that a class has under a name is the nearest one. -/
theorem findAttribute?_eq_some_iff (t : ClassTable) (c name o : String) (info : AttributeInfo) :
    t.findAttribute? c name = some (o, info) ↔
      t.classes.Nearest (·.attributes name) c o info :=
  t.findSome?_ancestry_eq_some_iff (·.attributes name) c o info

/-- The method that a class has under a name is the nearest one. -/
theorem findMethod?_eq_some_iff (t : ClassTable) (c name o : String) (signature : Signature) :
    t.findMethod? c name = some (o, signature) ↔
      t.classes.Nearest (·.methods name) c o signature :=
  t.findSome?_ancestry_eq_some_iff (·.methods name) c o signature

/-- No attribute is found just if no ancestor declares one. -/
theorem findAttribute?_eq_none_iff (t : ClassTable) (c name : String) :
    t.findAttribute? c name = none ↔
      ¬ ∃ o info, t.classes.Nearest (·.attributes name) c o info := by
  rw [Option.eq_none_iff_forall_ne_some]
  constructor
  · rintro h ⟨o, info, hn⟩
    exact h (o, info) ((t.findAttribute?_eq_some_iff c name o info).mpr hn)
  · rintro h ⟨o, info⟩ hf
    exact h ⟨o, info, (t.findAttribute?_eq_some_iff c name o info).mp hf⟩

/-! ## Subclasses -/

/-- A walk that comes to a class inherits from it. -/
theorem inherits_of_reaches? {t : ClassTable} {sup : String} {steps : Nat} {seen : List String}
    {c : String} (h : t.reaches? sup steps seen c = some true) : t.classes.Inherits c sup := by
  fun_induction t.reaches? sup steps seen c with
  | case1 => exact .refl
  | case2 | case3 | case4 => cases h
  | case5 seen c _ _ d steps hp ih => exact .head ((t.extends_iff c d).mpr hp) (ih h)

/-- A walk that ends elsewhere has seen every class that its start inherits from: the classes seen
are closed under `extends` up to the class the walk stands at. -/
theorem not_inherits_of_reaches? {t : ClassTable} {sup : String} {steps : Nat}
    {seen : List String} {c : String} (hsup : sup ∉ seen)
    (hclosed : ∀ s ∈ seen, ∀ d, t.classes.Extends s d → d = c ∨ d ∈ seen)
    (h : t.reaches? sup steps seen c = some false) : ¬ t.classes.Inherits c sup := by
  fun_induction t.reaches? sup steps seen c with
  | case1 | case4 => cases h
  | case2 steps seen c _ hseen =>
    intro hc
    -- The walk is back at a class seen before, so nothing leads out of the classes seen.
    have hmem : c ∈ seen := by simpa using hseen
    have hall : ∀ d, t.classes.Inherits c d → d ∈ seen := by
      intro d hd
      induction hd with
      | refl => exact hmem
      | tail _ hstep ihd =>
        rcases hclosed _ ihd _ hstep with rfl | hd
        · exact hmem
        · exact hd
    exact hsup (hall sup hc)
  | case3 steps seen c hne _ hp =>
    intro hc
    rcases Relation.ReflTransGen.cases_head hc with rfl | ⟨d, hstep, -⟩
    · exact hne rfl
    · cases hp.symm.trans ((t.extends_iff c d).mp hstep)
  | case5 seen c hne _ d steps hp ih =>
    intro hc
    rcases Relation.ReflTransGen.cases_head hc with rfl | ⟨d', hstep, hd⟩
    · exact hne rfl
    · obtain rfl := Option.some.inj (hp.symm.trans ((t.extends_iff c d').mp hstep))
      refine ih (List.not_mem_cons_of_ne_of_not_mem (Ne.symm hne) hsup) ?_ h hd
      intro s hmem d' hstep'
      rcases List.mem_cons.mp hmem with rfl | hmem
      · exact .inl (Option.some.inj (((t.extends_iff s d').mp hstep').symm.trans hp))
      · rcases hclosed s hmem d' hstep' with rfl | h'
        · exact .inr List.mem_cons_self
        · exact .inr (List.mem_cons_of_mem _ h')

/-- A walk ends if it has as many steps left as there are classes with a parent that it has not
seen. -/
theorem exists_reaches? {t : ClassTable} {sup : String} {steps : Nat} {seen : List String}
    {c : String} (hn : seen.Nodup) (hs : seen ⊆ t.heirs)
    (hsteps : t.heirs.length ≤ steps + seen.length) :
    ∃ answer, t.reaches? sup steps seen c = some answer := by
  fun_induction t.reaches? sup steps seen c with
  | case1 | case2 | case3 => exact ⟨_, rfl⟩
  | case4 seen c _ hseen d hp =>
    have hlt := length_lt_of_not_mem hn hs (mem_heirs_of_parent? hp) (by simpa using hseen)
    omega
  | case5 seen c _ hseen d steps hp ih =>
    exact ih (List.nodup_cons.mpr ⟨by simpa using hseen, hn⟩)
      (List.cons_subset.mpr ⟨mem_heirs_of_parent? hp, hs⟩) (by rw [List.length_cons]; omega)

/-- What a walk from a class answers is whether the class inherits. -/
theorem inherits_iff_of_reaches? {t : ClassTable} {sub sup : String} {steps : Nat} {answer : Bool}
    (h : t.reaches? sup steps [] sub = some answer) :
    t.classes.Inherits sub sup ↔ answer = true := by
  cases answer with
  | true => exact ⟨fun _ => rfl, fun _ => inherits_of_reaches? h⟩
  | false =>
    refine ⟨fun hinherits => ?_, nofun⟩
    exact absurd hinherits (not_inherits_of_reaches? List.not_mem_nil (List.forall_mem_nil _) h)

/-- One class is a subclass of another exactly if it inherits from it. -/
theorem isSubclass_iff (t : ClassTable) (sub sup : String) :
    t.isSubclass sub sup = true ↔ t.classes.Inherits sub sup := by
  obtain ⟨answer, hanswer⟩ : ∃ answer, t.reaches? sup t.entries.length [] sub = some answer :=
    exists_reaches? List.nodup_nil (List.nil_subset _) t.length_heirs_le
  rw [inherits_iff_of_reaches? hanswer, isSubclass, hanswer, Option.getD_some]

end ClassTable

end ClassCheck
