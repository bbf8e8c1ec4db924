import ClassCheck.Proofs.TableFaults

/-!
# Names declared into a class one after another

The declarations of a class go into its entry in place: the slot of a name is made before it is
seen whether there is room, and a declaration that is refused leaves no trace. What an entry holds
is then told by the declarations it took. They get along with each other, so an attribute or
method never shares a slot, and a further declaration is refused by one of them, after which the
refusal is called. Whether an entry takes all of some declarations, and what it holds then, does
not depend on their order.
-/

namespace ClassCheck

/-- What a declaration is called that is refused because of another: two attributes after the one
that was there, anything else after the declaration itself. -/
def Declaration.clash (d other : Declaration) : Declared :=
  match d.content, other.content with
  | .value (.attribute _), .value (.attribute first) => ClassEntry.attributeLabel first.isFinal
  | .value (.attribute info), _ => ClassEntry.attributeLabel info.isFinal
  | .value (.method _), _ => .method
  | .ctor _, _ => .ctor
  | .dtor, _ => .dtor

/-! ## Declarations that get along -/

namespace Declaration

variable {ds : List Declaration} (hpair : ds.Pairwise Coexist) {d other : Declaration}

include hpair

/-- Of declarations that get along, an attribute or method is the only one of its name. -/
theorem eq_of_value (hd : d ∈ ds) (hother : other ∈ ds) (hname : other.name = d.name)
    {member : ValueMember} (hmember : d.content = .value member) : other = d := by
  by_contra hne
  simpa [Coexist, hname, hmember] using hpair.forall hother hd hne

/-- The value under the name of one of the declarations is its own. -/
theorem findSome?_value? (hother : other ∈ ds) :
    ds.findSome? (·.value? other.name) = other.value? other.name := by
  cases hfound : ds.findSome? (·.value? other.name) with
  | none => exact (List.findSome?_eq_none_iff.mp hfound other hother).symm
  | some member =>
    obtain ⟨d, hd, hmember⟩ := List.exists_of_findSome?_eq_some hfound
    obtain ⟨hname, hcontent⟩ := value?_eq_some.mp hmember
    rw [eq_of_value hpair hd hother hname.symm hcontent] at hmember ⊢
    exact hmember.symm

/-- A refused declaration is called after any of those that refuse it. -/
theorem label_eq_clash (hother : other ∈ ds) (hclash : ¬ other.Coexist d) :
    d.label ds = d.clash other := by
  have hname : other.name = d.name := by
    by_contra hne
    exact hclash fun h => absurd h hne
  unfold label clash
  rw [← hname, findSome?_value? hpair hother]
  rcases d.content with ⟨⟨info⟩ | ⟨signature⟩⟩ | ⟨signature⟩ | _
  case value.attribute =>
    unfold value?
    rcases other.content with ⟨⟨first⟩ | ⟨signature⟩⟩ | ⟨signature⟩ | _ <;>
      simp [ValueMember.attribute?]
  all_goals rfl

end Declaration

namespace ClassEntry

/-! ## Entering in place -/

/-- Make the slot of a name, unless it is there. -/
def reserve (e : ClassEntry) (name : String) : ClassEntry :=
  if (e.slot? name).isSome then e else e.setSlot name .empty

/-- Enter a declaration in place, which makes the slot of its name first. Gives the entry
afterwards, and what the declaration is called if it was refused. -/
def enter (e : ClassEntry) (d : Declaration) : ClassEntry × Option Declared :=
  match (e.reserve d.name).declare d with
  | .ok e' => (e', none)
  | .error what => (e.reserve d.name, some what)

/-- Enter declarations one after another, whether or not those before were refused. -/
def enterAll (e : ClassEntry) (ds : List Declaration) : ClassEntry :=
  ds.foldl (fun e d => (e.enter d).1) e

/-- Of declarations entered one after another, those that were not refused. -/
def accepted (e : ClassEntry) : List Declaration → List Declaration
  | [] => []
  | d :: ds =>
    if (e.enter d).2 = none then d :: (e.enter d).1.accepted ds else (e.enter d).1.accepted ds

private theorem slotOf_reserve (e : ClassEntry) (name other : String) :
    (e.reserve name).slotOf other = e.slotOf other := by
  unfold reserve
  split
  · rfl
  · rename_i hnone
    rw [slotOf_setSlot]
    by_cases h : other = name
    · rw [if_pos h, h, slotOf, Option.not_isSome_iff_eq_none.mp hnone, Option.getD_none]
    · rw [if_neg h]

private theorem setSlot_reserve (e : ClassEntry) (name : String) (slot : NameSlot) :
    (e.reserve name).setSlot name slot = e.setSlot name slot := by
  unfold reserve
  split
  · rfl
  · simp [setSlot]

/-- A declaration is entered alike whether the slot of its name is there or not. -/
theorem declare_reserve_eq_ok_iff {e e' : ClassEntry} {d : Declaration} :
    (e.reserve d.name).declare d = .ok e' ↔ e.declare d = .ok e' := by
  simp only [declare_eq_ok_iff, slotOf_reserve, setSlot_reserve]

/-- A name without a slot is free for any declaration. -/
theorem reserve_of_declare_error {e : ClassEntry} {d : Declaration} {what : Declared}
    (h : e.declare d = .error what) : e.reserve d.name = e := by
  refine if_pos (Option.isSome_iff_ne_none.mpr fun hnone => ?_)
  have hempty : e.slotOf d.name = .empty := by rw [slotOf, hnone, Option.getD_none]
  have hroom : (e.slotOf d.name).refuses d.content = false := by
    rw [hempty]
    cases d.content <;> rfl
  rw [declare_eq_ok_iff.mpr ⟨hroom, rfl⟩] at h
  cases h

/-- A declaration that is taken makes the entry with it. -/
theorem enter_of_declare_ok {e e' : ClassEntry} {d : Declaration} (h : e.declare d = .ok e') :
    e.enter d = (e', none) := by
  unfold enter
  rw [declare_reserve_eq_ok_iff.mpr h]

/-- A declaration that is refused leaves no trace. -/
theorem enter_of_declare_error {e : ClassEntry} {d : Declaration} {what : Declared}
    (h : e.declare d = .error what) : e.enter d = (e, some what) := by
  unfold enter
  rw [reserve_of_declare_error h, h]

/-- What is refused in place is what cannot be declared. -/
theorem enter_snd_eq_some_iff {e : ClassEntry} {d : Declaration} {what : Declared} :
    (e.enter d).2 = some what ↔ e.declare d = .error what := by
  cases h : e.declare d with
  | ok e' => simp [enter_of_declare_ok h]
  | error other => simp [enter_of_declare_error h]

private theorem enter_eq_none_iff {e e' : ClassEntry} {d : Declaration} :
    e.enter d = (e', none) ↔ e.declare d = .ok e' := by
  cases h : e.declare d with
  | ok e₁ => simp [enter_of_declare_ok h]
  | error what => simp [enter_of_declare_error h]

/-! ## What an entry took -/

/-- An entry is what the accepted declarations alone make of it. -/
theorem declares_accepted (e : ClassEntry) (ds : List Declaration) :
    (e.accepted ds).foldlM declare e = .ok (e.enterAll ds) := by
  induction ds generalizing e with
  | nil => rfl
  | cons d ds ih =>
    unfold accepted
    rw [enterAll, List.foldl_cons]
    cases h : e.declare d with
    | ok e' =>
      rw [enter_of_declare_ok h, if_pos rfl, List.foldlM_cons, h]
      exact ih e'
    | error what =>
      rw [enter_of_declare_error h, if_neg (Option.some_ne_none what)]
      exact ih e

/-- If all declarations are taken, these are the accepted ones. -/
theorem accepted_of_declares {e e' : ClassEntry} {ds : List Declaration}
    (h : ds.foldlM declare e = .ok e') : e.accepted ds = ds := by
  induction ds generalizing e with
  | nil => rfl
  | cons d ds ih =>
    rw [List.foldlM_cons, bind_eq_ok_iff] at h
    obtain ⟨e₁, hd, hds⟩ := h
    unfold accepted
    rw [enter_of_declare_ok hd, if_pos rfl, ih hds]

section

variable (name : String) (parent : Option String) (ds : List Declaration)

/-- An entry records the declarations that it took. -/
theorem records_enterAll : ((bare name parent).enterAll ds).Records
    ((bare name parent).accepted ds) :=
  (records_bare name parent).of_declares (declares_accepted _ ds)

/-- The declarations that it took get along. -/
theorem accepted_pairwise :
    ((bare name parent).accepted ds).Pairwise Declaration.Coexist :=
  ((records_bare name parent).exists_declares_iff.mp ⟨_, declares_accepted _ ds⟩).2

end

/-! ## Slots -/

/-- Under every name that has a slot something is declared. -/
def Tight (e : ClassEntry) : Prop := ∀ name slot, e.slot? name = some slot → slot.isOccupied = true

/-- A declaration that is taken leaves no slot empty. -/
theorem Tight.of_declare {e e' : ClassEntry} {d : Declaration} (h : e.Tight)
    (hd : e.declare d = .ok e') : e'.Tight := by
  obtain ⟨-, rfl⟩ := declare_eq_ok_iff.mp hd
  intro name slot hslot
  rw [slot?_setSlot] at hslot
  split at hslot
  · cases hslot
    cases d.content <;> simp [NameSlot.put, NameSlot.isOccupied]
  · exact h name slot hslot

/-- Nor do declarations in order. -/
theorem Tight.of_declares {e e' : ClassEntry} {ds : List Declaration} (h : e.Tight)
    (hds : ds.foldlM declare e = .ok e') : e'.Tight := by
  induction ds generalizing e with
  | nil => cases hds; exact h
  | cons d ds ih =>
    rw [List.foldlM_cons, bind_eq_ok_iff] at hds
    obtain ⟨e₁, hd, hds⟩ := hds
    exact ih (h.of_declare hd) hds

/-- A name has a slot just if something is declared under it. -/
theorem Tight.isSome_slot?_iff {e : ClassEntry} (h : e.Tight) (name : String) :
    (e.slot? name).isSome = true ↔ (e.slotOf name).isOccupied = true := by
  unfold slotOf
  cases hslot : e.slot? name with
  | none => simp [NameSlot.isOccupied, NameSlot.empty]
  | some slot => simpa using h name slot hslot

/-- A name has a slot just if a declaration of it was taken. -/
theorem isSome_slot?_enterAll_iff (name : String) (parent : Option String)
    (ds : List Declaration) (n : String) :
    (((bare name parent).enterAll ds).slot? n).isSome = true ↔
      ∃ d ∈ (bare name parent).accepted ds, d.name = n := by
  have hbare : (bare name parent).Tight := by
    intro n slot hslot
    cases hslot
  rw [(hbare.of_declares (declares_accepted _ ds)).isSome_slot?_iff,
    (records_enterAll name parent ds).isOccupied_iff]

/-- A slot of declarations that get along has an attribute or method alone. -/
theorem Records.value_alone {e : ClassEntry} {ds : List Declaration} (h : e.Records ds)
    (hpair : ds.Pairwise Declaration.Coexist) {name : String}
    (hvalue : (e.slotOf name).value.isSome = true) :
    (e.slotOf name).ctor = none ∧ (e.slotOf name).dtor = false := by
  obtain ⟨d, hd, rfl, member, hmember⟩ := h.value_isSome_iff.mp hvalue
  have honly : ∀ d' ∈ ds, d'.name = d.name → d'.content = .value member := by
    intro d' hd' hname
    rw [Declaration.eq_of_value hpair hd hd' hname hmember, hmember]
  refine ⟨Option.not_isSome_iff_eq_none.mp fun hctor => ?_, Bool.eq_false_iff.mpr fun hdtor => ?_⟩
  · obtain ⟨d', hd', hname, signature, hsignature⟩ := h.ctor_isSome_iff.mp hctor
    cases hsignature.symm.trans (honly d' hd' hname)
  · obtain ⟨d', hd', hname, hcontent⟩ := h.dtor_iff.mp hdtor
    cases hcontent.symm.trans (honly d' hd' hname)

/-- A declaration is refused because of one that was entered, and called after the two. -/
theorem Records.refused_iff {e : ClassEntry} {ds : List Declaration} (h : e.Records ds)
    (hpair : ds.Pairwise Declaration.Coexist) {d : Declaration} {what : Declared} :
    (e.enter d).2 = some what ↔ ∃ other ∈ ds, ¬ other.Coexist d ∧ what = d.clash other := by
  rw [enter_snd_eq_some_iff, h.declare_eq_error_iff]
  constructor
  · rintro ⟨⟨other, hother, hclash⟩, rfl⟩
    exact ⟨other, hother, hclash, Declaration.label_eq_clash hpair hother hclash⟩
  · rintro ⟨other, hother, hclash, rfl⟩
    exact ⟨⟨other, hother, hclash⟩, (Declaration.label_eq_clash hpair hother hclash).symm⟩

/-! ## The order of declarations -/

private theorem declare_congr {e f e' : ClassEntry} {d : Declaration} (hslots : f.slot? = e.slot?)
    (h : e.declare d = .ok e') : ∃ f', f.declare d = .ok f' ∧ f'.slot? = e'.slot? := by
  obtain ⟨hroom, rfl⟩ := declare_eq_ok_iff.mp h
  have hslot : f.slotOf d.name = e.slotOf d.name := by rw [slotOf, slotOf, hslots]
  refine ⟨_, declare_eq_ok_iff.mpr ⟨hslot ▸ hroom, rfl⟩, funext fun n => ?_⟩
  rw [slot?_setSlot, slot?_setSlot, hslot, hslots]

/-- Entries of the same slots take the same declarations. -/
theorem declares_congr {e f e' : ClassEntry} {ds : List Declaration} (hslots : f.slot? = e.slot?)
    (h : ds.foldlM declare e = .ok e') :
    ∃ f', ds.foldlM declare f = .ok f' ∧ f'.slot? = e'.slot? := by
  induction ds generalizing e f with
  | nil => cases h; exact ⟨f, rfl, hslots⟩
  | cons d ds ih =>
    simp only [List.foldlM_cons, bind_eq_ok_iff] at h ⊢
    obtain ⟨e₁, hd, hds⟩ := h
    obtain ⟨f₁, hfd, hslots₁⟩ := declare_congr hslots hd
    obtain ⟨f', hf', hslots'⟩ := ih hslots₁ hds
    exact ⟨f', ⟨f₁, hfd, hf'⟩, hslots'⟩

end ClassEntry

/-- Two declarations that fit under one name fit in the other order too. -/
theorem NameSlot.put_comm {slot : NameSlot} {a b : Content} (ha : slot.refuses a = false)
    (hb : (slot.put a).refuses b = false) : slot.refuses b = false ∧
      (slot.put b).refuses a = false ∧ (slot.put b).put a = (slot.put a).put b := by
  cases a <;> cases b <;> simp_all [refuses, put, isOccupied]

namespace ClassEntry

/-- Two declarations that are taken in one order are taken in the other, with the same slots. -/
theorem declare_comm {e e₁ e₂ : ClassEntry} {a b : Declaration} (ha : e.declare a = .ok e₁)
    (hb : e₁.declare b = .ok e₂) :
    ∃ f₁ f₂, e.declare b = .ok f₁ ∧ f₁.declare a = .ok f₂ ∧ f₂.slot? = e₂.slot? := by
  obtain ⟨hroomA, rfl⟩ := declare_eq_ok_iff.mp ha
  obtain ⟨hroomB, rfl⟩ := declare_eq_ok_iff.mp hb
  by_cases hname : a.name = b.name
  · rw [hname] at hroomA hroomB ⊢
    rw [slotOf_setSlot, if_pos rfl] at hroomB ⊢
    obtain ⟨hroomB', hroomA', hput⟩ := NameSlot.put_comm hroomA hroomB
    refine ⟨_, _, declare_eq_ok_iff.mpr ⟨hroomB', rfl⟩, declare_eq_ok_iff.mpr ⟨?_, rfl⟩,
      funext fun n => ?_⟩
    · rwa [hname, slotOf_setSlot, if_pos rfl]
    · simp only [hname, slotOf_setSlot, slot?_setSlot, hput, if_true]
      by_cases hn : n = b.name
      · rw [if_pos hn, if_pos hn]
      · simp only [if_neg hn]
  · rw [slotOf_setSlot, if_neg (Ne.symm hname)] at hroomB ⊢
    refine ⟨_, _, declare_eq_ok_iff.mpr ⟨hroomB, rfl⟩, declare_eq_ok_iff.mpr ⟨?_, rfl⟩,
      funext fun n => ?_⟩
    · rwa [slotOf_setSlot, if_neg hname]
    · simp only [slotOf_setSlot, slot?_setSlot, if_neg hname]
      by_cases hn : n = a.name
      · rw [if_pos hn, if_neg (hn ▸ hname), if_pos hn]
      · rw [if_neg hn, if_neg hn]

/-- What can be declared in one order can be declared in any other, with the same slots. -/
theorem declares_perm {ds ds' : List Declaration} (hperm : ds.Perm ds') {e e' : ClassEntry}
    (h : ds.foldlM declare e = .ok e') :
    ∃ f', ds'.foldlM declare e = .ok f' ∧ f'.slot? = e'.slot? := by
  induction hperm generalizing e e' with
  | nil => exact ⟨e', h, rfl⟩
  | cons d _ ih =>
    simp only [List.foldlM_cons, bind_eq_ok_iff] at h ⊢
    obtain ⟨e₁, hd, hds⟩ := h
    obtain ⟨f', hf', hslots⟩ := ih hds
    exact ⟨f', ⟨e₁, hd, hf'⟩, hslots⟩
  | swap a b ds =>
    simp only [List.foldlM_cons, bind_eq_ok_iff] at h ⊢
    obtain ⟨e₁, hb, e₂, ha, hds⟩ := h
    obtain ⟨f₁, f₂, ha', hb', hslots₂⟩ := declare_comm hb ha
    obtain ⟨f', hf', hslots⟩ := declares_congr hslots₂ hds
    exact ⟨f', ⟨f₁, ha', f₂, hb', hf'⟩, hslots⟩
  | trans _ _ ih₁ ih₂ =>
    obtain ⟨e₁, h₁, hslots₁⟩ := ih₁ h
    obtain ⟨f', hf', hslots⟩ := ih₂ h₁
    exact ⟨f', hf', hslots.trans hslots₁⟩

/-- An entry that takes all of some declarations takes them in any order, and then holds the
same. -/
theorem accepted_perm {e : ClassEntry} {ds ds' : List Declaration} (hperm : ds.Perm ds')
    (h : e.accepted ds = ds) :
    e.accepted ds' = ds' ∧ (e.enterAll ds').slot? = (e.enterAll ds).slot? := by
  have hds := e.declares_accepted ds
  rw [h] at hds
  obtain ⟨f', hf', hslots⟩ := declares_perm hperm hds
  have hall := accepted_of_declares hf'
  have hlast := e.declares_accepted ds'
  rw [hall, hf'] at hlast
  cases hlast
  exact ⟨hall, hslots⟩

/-! ## Every sequence of declarations -/

/-- However declarations are entered into an empty class, one after another: an attribute or
method shares its slot with nothing, and a name has a slot exactly if a declaration of it was
accepted. A declaration is refused exactly if one that was accepted does not get along with it,
is called after the two of them and leaves the entry as it was. And a class takes all of some
declarations in one order exactly if it takes them in any other, with the same slots. -/
theorem names_kept_apart (name : String) (parent : Option String) (tried : List Declaration) :
    let e := (bare name parent).enterAll tried
    let kept := (bare name parent).accepted tried
    (∀ n slot, e.slot? n = some slot → slot.value.isSome = true →
      slot.ctor = none ∧ slot.dtor = false) ∧
    (∀ n, (e.slot? n).isSome = true ↔ ∃ d ∈ kept, d.name = n) ∧
    (∀ d what, (e.enter d).2 = some what ↔
      ∃ other ∈ kept, ¬ other.Coexist d ∧ what = d.clash other) ∧
    (∀ d what, e.declare d = .error what ↔ e.enter d = (e, some what)) ∧
    (∀ d e', e.declare d = .ok e' ↔ e.enter d = (e', none)) ∧
    ∀ ds ds' : List Declaration, ds.Perm ds' → (e.accepted ds = ds ↔ e.accepted ds' = ds') ∧
      (e.accepted ds = ds → (e.enterAll ds').slot? = (e.enterAll ds).slot?) := by
  intro e kept
  have hrecords : e.Records kept := records_enterAll name parent tried
  have hpair : kept.Pairwise Declaration.Coexist := accepted_pairwise name parent tried
  refine ⟨?_, isSome_slot?_enterAll_iff name parent tried, ?_, ?_, ?_, ?_⟩
  · intro n slot hslot hvalue
    have hslotOf : e.slotOf n = slot := by rw [slotOf, hslot, Option.getD_some]
    rw [← hslotOf] at hvalue ⊢
    exact hrecords.value_alone hpair hvalue
  · intro d what
    exact hrecords.refused_iff hpair
  · intro d what
    exact ⟨enter_of_declare_error, fun h => enter_snd_eq_some_iff.mp (congrArg Prod.snd h)⟩
  · intro d e'
    exact enter_eq_none_iff.symm
  · intro ds ds' hperm
    exact ⟨⟨fun h => (accepted_perm hperm h).1, fun h => (accepted_perm hperm.symm h).1⟩,
      fun h => (accepted_perm hperm h).2⟩

/-- A final attribute, with a second attribute of its name refused. -/
def sizeTwice : List Declaration :=
  [⟨"size", .value (.attribute ⟨.int, true, false, false⟩)⟩,
    ⟨"size", .value (.attribute ⟨.int, false, false, false⟩)⟩]

/-- A constructor and a destructor of one name. -/
def lifetime : List Declaration := [⟨"Stack", .ctor ⟨some (.object "Stack"), [], false⟩⟩,
  ⟨"Stack", .dtor⟩]

/-- The final size of a stack refuses whatever else is tried under its name, and constructor and
destructor can come in either order. -/
theorem stack_names_kept_apart :
    let e := (bare "Stack" none).enterAll sizeTwice
    (e.enter ⟨"size", .value (.attribute ⟨.boolean, false, true, true⟩)⟩).2 = some .constant ∧
    (e.enter ⟨"size", .dtor⟩).2 = some .dtor ∧
    ((e.slot? "size").isSome = true ∧ (e.slot? "Stack").isSome = false) ∧
    (lifetime.Perm lifetime.reverse ∧ e.accepted lifetime = lifetime) ∧
    (e.enterAll lifetime.reverse).slot? = (e.enterAll lifetime).slot? := by
  intro e
  obtain ⟨-, hslot, hrefused, -, -, horder⟩ := names_kept_apart "Stack" none sizeTwice
  have hkept : (bare "Stack" none).accepted sizeTwice = [sizeTwice.head (by decide)] := by decide
  rw [hkept] at hslot hrefused
  have hperm : lifetime.Perm lifetime.reverse := (List.reverse_perm _).symm
  have hall : e.accepted lifetime = lifetime := by decide
  refine ⟨(hrefused _ _).mpr ⟨_, List.mem_singleton.mpr rfl, ?_, rfl⟩,
    (hrefused _ _).mpr ⟨_, List.mem_singleton.mpr rfl, ?_, rfl⟩,
    ⟨(hslot _).mpr ⟨_, List.mem_singleton.mpr rfl, rfl⟩, ?_⟩, ⟨hperm, hall⟩,
    (horder _ _ hperm).2 hall⟩
  · simp [Declaration.Coexist, sizeTwice]
  · simp [Declaration.Coexist, sizeTwice]
  · rw [← Bool.not_eq_true, hslot]
    simp [sizeTwice]

end ClassEntry

end ClassCheck
