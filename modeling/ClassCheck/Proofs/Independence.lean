import ClassCheck.Proofs.EarlyStop
import ClassCheck.Proofs.Frames
import ClassCheck.Proofs.TableStatics
import Mathlib.Data.List.Nodup
import Mathlib.Data.List.Pairwise
import Mathlib.Data.List.Perm.Basic

/-!
# Members are checked independently of each other

One state could be carried through all members of a program: each member replaces what the one
before it has left of its context, so that carrying it on makes no difference. The progress is
carried on, but a member leaves nothing of it behind: its frames are gone, and the names around
every member are as they were. So the violations of a program are those of its members one by one,
each checked alone. The class table does not depend on the order of classes and members either, as
far as a check can tell. Hence a program and any reordering of it pass together, or fail with
violations of the same priority.
-/

namespace ClassCheck

/-! ## One state for all members -/

namespace Context

/-- Each member replaces all that the member before it has left. -/
@[simp] theorem inMember_enter (ctx : Context) (isStatic inCtor : Bool) (result : Option Ty)
    (m : Member) : (ctx.enter isStatic inCtor result).inMember m = ctx.inMember m := by
  cases m <;> rfl

/-- No member is checked in another way for what the member before it has left, not even in the
part that comes before it is entered. -/
theorem member_enter (ctx : Context) (isStatic inCtor : Bool) (result : Option Ty) (m : Member)
    (p : Progress) : (ctx.enter isStatic inCtor result).member m p = ctx.member m p := by
  rcases m with ⟨decl, span⟩ | ⟨decl, span⟩ | ⟨decl, span⟩ | ⟨decl, span⟩ <;> rfl

end Context

/-- The state of a check that carries its context from member to member and from class to
class. -/
structure Analyzer where
  /-- The context that the member before has left. -/
  ctx : Context
  /-- How far the check has come. -/
  progress : Progress

namespace Analyzer

/-- Check a member in the context that the one before has left, and leave its own. -/
def member (a : Analyzer) (m : Member) : Analyzer :=
  ⟨a.ctx.inMember m, a.ctx.member m a.progress⟩

/-- Check members in order. -/
def members : List Member → Analyzer → Analyzer
  | [], a => a
  | m :: ms, a => if a.ctx.halts a.progress then a else members ms (a.member m)

/-- Check a class. Its name replaces that of the class before, and all else is left for its first
member to replace. -/
def checkClass (c : ClassDecl) (a : Analyzer) : Analyzer :=
  members c.members ⟨{ a.ctx with className := c.name.name },
    a.progress.note (.enterClass c.name.name)⟩

/-- Check classes in order. -/
def checkClasses : List ClassDecl → Analyzer → Analyzer
  | [], a => a
  | c :: cs, a => if a.ctx.halts a.progress then a else checkClasses cs (checkClass c a)

/-- A state has the context of a class, but for what some member has left. -/
def Follows (a : Analyzer) (ctx : Context) : Prop :=
  ∃ isStatic inCtor result, a.ctx = ctx.enter isStatic inCtor result

/-- A member of the class is checked as from the context of the class, and what it leaves is no
more than its own. -/
theorem Follows.member {a : Analyzer} {ctx : Context} (h : a.Follows ctx) (m : Member) :
    (a.member m).ctx = ctx.inMember m ∧ (a.member m).Follows ctx ∧
      (a.member m).progress = ctx.member m a.progress := by
  obtain ⟨isStatic, inCtor, result, hctx⟩ := h
  have hinner : (a.member m).ctx = ctx.inMember m := by
    rw [Analyzer.member, hctx, Context.inMember_enter]
  refine ⟨hinner, ?_, ?_⟩
  · rw [Follows, hinner]
    cases m <;> exact ⟨_, _, _, rfl⟩
  · rw [Analyzer.member, hctx, Context.member_enter]

/-- A state halts where its class does. -/
theorem Follows.halts {a : Analyzer} {ctx : Context} (h : a.Follows ctx) (p : Progress) :
    a.ctx.halts p = ctx.halts p := by
  obtain ⟨isStatic, inCtor, result, hctx⟩ := h
  rw [hctx]
  rfl

/-- All members of the class are checked as from its context, and leave no more behind. -/
theorem Follows.members {a : Analyzer} {ctx : Context} (h : a.Follows ctx) (ms : List Member) :
    (members ms a).Follows ctx ∧ (members ms a).progress = ctx.members ms a.progress := by
  induction ms generalizing a with
  | nil => exact ⟨h, rfl⟩
  | cons m ms ih =>
    obtain ⟨-, hnext, hprogress⟩ := h.member m
    rw [Analyzer.members, Context.members, h.halts]
    split
    · exact ⟨h, rfl⟩
    · rw [← hprogress]
      exact ih hnext

/-- A class is checked as from a context of its own. -/
theorem checkClass_follows (a : Analyzer) (c : ClassDecl) :
    (checkClass c a).Follows (.ofClass a.ctx.walk a.ctx.table c.name.name) ∧
      (checkClass c a).progress = a.ctx.table.checkClass a.ctx.walk c a.progress := by
  have hstart : Follows ⟨{ a.ctx with className := c.name.name },
      a.progress.note (.enterClass c.name.name)⟩ (.ofClass a.ctx.walk a.ctx.table c.name.name) :=
    -- What the class before has left counts as left by a member of this one.
    ⟨a.ctx.isStatic, a.ctx.inCtor, a.ctx.result, rfl⟩
  exact hstart.members c.members

/-- So are all classes, one after another. -/
theorem checkClasses_progress (a : Analyzer) (cs : List ClassDecl) :
    (checkClasses cs a).progress = a.ctx.table.checkClasses a.ctx.walk cs a.progress := by
  induction cs generalizing a with
  | nil => rfl
  | cons c cs ih =>
    obtain ⟨⟨isStatic, inCtor, result, hctx⟩, hprogress⟩ := a.checkClass_follows c
    rw [checkClasses, ClassTable.checkClasses, Context.halts]
    split
    · rfl
    · rw [ih, hprogress, hctx]
      rfl

/-- Whatever class, flags and result a check starts with, and although each member finds those of
the member before it, the events are those of a traversal in which each class has a context of
its own. -/
theorem events_checkClasses (ctx : Context) (p : Program) :
    (checkClasses p.classes ⟨ctx, .start⟩).progress.events = ctx.table.traverse ctx.walk p :=
  congrArg Progress.events (checkClasses_progress ⟨ctx, .start⟩ p.classes)

end Analyzer

/-! ## Members one by one -/

/-- Values stored since make no difference to the names around every member. -/
theorem Scope.eq_global_of_fills {s : Scope} (h : Scope.global.Fills s) : s = Scope.global := by
  obtain ⟨⟨bindings, loopDepth⟩, outer⟩ := s
  obtain ⟨hframe, houter⟩ := List.forall₂_cons.mp h
  obtain rfl : loopDepth = 0 := hframe.loopDepth
  obtain rfl : outer = [] := List.forall₂_nil_left_iff.mp houter
  obtain ⟨b, bs, hb, hbs, rfl⟩ := List.forall₂_cons_left_iff.mp hframe.bindings
  obtain rfl : bs = [] := List.forall₂_nil_left_iff.mp hbs
  rcases hb with rfl | rfl <;> rfl

namespace Context

variable {ctx : Context} (hw : ctx.walk = .exhaustive)

/-- Checking a member leaves the names around every member as they were. -/
theorem member_global (ctx : Context) (m : Member) {p : Progress} (hp : p.scope = .global) :
    (ctx.member m p).scope = .global := by
  have hfills := ctx.member_fills m p
  rw [hp] at hfills
  exact Scope.eq_global_of_fills hfills

include hw

/-- A member adds the events that it has when it is checked alone. -/
theorem member_events (m : Member) {p : Progress} (hp : p.scope = .global) :
    (ctx.member m p).events = p.events ++ (ctx.member m .start).events := by
  have hclear : ctx.member m p = ctx.member m (Progress.start.after p.events) := by
    simp only [member, Progress.after, Progress.start, hp, List.append_nil]
  rw [hclear, member_after ⟨rfl, rfl, rfl, rfl, rfl⟩ hw hw]
  rfl

/-- The members of a class add the events that they have one by one. -/
theorem members_events (ms : List Member) {p : Progress} (hp : p.scope = .global) :
    (ctx.members ms p).scope = .global ∧ (ctx.members ms p).events =
      p.events ++ ms.flatMap fun m => (ctx.member m .start).events := by
  induction ms generalizing p with
  | nil => exact ⟨hp, (List.append_nil _).symm⟩
  | cons m ms ih =>
    rw [members, if_neg (by rw [halts_of_exhaustive hw]; exact Bool.false_ne_true)]
    obtain ⟨hscope, hevents⟩ := ih (ctx.member_global m hp)
    refine ⟨hscope, ?_⟩
    rw [hevents, member_events hw m hp, List.flatMap_cons, List.append_assoc]

end Context

namespace ClassTable

/-- Checking a class leaves the names around every member as they were, however far it goes. -/
theorem checkClass_global (t : ClassTable) (walk : Walk) (c : ClassDecl) {p : Progress}
    (hp : p.scope = .global) : (t.checkClass walk c p).scope = .global := by
  have hfills := t.checkClass_fills walk c p
  rw [hp] at hfills
  exact Scope.eq_global_of_fills hfills

/-- The violations of a member of a class that is checked alone, from a fresh start. -/
def memberViolations (t : ClassTable) (className : String) (m : Member) : List Violation :=
  Event.violations ((Context.ofClass .exhaustive t className).member m .start).events

/-- The violations of the members of a class, each checked alone. -/
def classViolations (t : ClassTable) (c : ClassDecl) : List Violation :=
  c.members.flatMap (t.memberViolations c.name.name)

private theorem violations_flatMap {α : Type} (f : α → List Event) (as : List α) :
    Event.violations (as.flatMap f) = as.flatMap fun a => Event.violations (f a) :=
  List.filterMap_flatMap

/-- A class adds the violations of its members one by one. -/
theorem checkClass_violations (t : ClassTable) (c : ClassDecl) {p : Progress}
    (hp : p.scope = .global) :
    (t.checkClass .exhaustive c p).scope = .global ∧
      Event.violations (t.checkClass .exhaustive c p).events =
        Event.violations p.events ++ t.classViolations c := by
  have hwalk : (Context.ofClass .exhaustive t c.name.name).walk = .exhaustive := rfl
  have hnoted : (p.note (.enterClass c.name.name)).scope = .global := hp
  obtain ⟨hscope, hevents⟩ := Context.members_events hwalk c.members hnoted
  refine ⟨hscope, ?_⟩
  have hnote : Event.violations (p.note (.enterClass c.name.name)).events =
      Event.violations p.events := by
    change Event.violations (p.events ++ [.enterClass c.name.name]) = _
    rw [Event.violations_append]
    exact List.append_nil _
  rw [checkClass, hevents, Event.violations_append, violations_flatMap, hnote]
  rfl

/-- The violations of classes are those of their members, each checked alone. -/
theorem checkClasses_violations (t : ClassTable) (cs : List ClassDecl) {p : Progress}
    (hp : p.scope = .global) :
    Event.violations (t.checkClasses .exhaustive cs p).events =
      Event.violations p.events ++ cs.flatMap t.classViolations := by
  induction cs generalizing p with
  | nil => exact (List.append_nil _).symm
  | cons c cs ih =>
    obtain ⟨hscope, hclass⟩ := t.checkClass_violations c hp
    rw [checkClasses, if_neg (by simp), ih hscope, hclass, List.flatMap_cons, List.append_assoc]

/-- The violations of a program are those of its members, each checked alone, in order. -/
theorem traverse_violations (t : ClassTable) (p : Program) :
    Event.violations (t.traverse .exhaustive p) = p.classes.flatMap t.classViolations :=
  t.checkClasses_violations p.classes rfl

end ClassTable

/-- Without a decisive violation nothing is left out. -/
theorem Program.violations_of_analyze {p : Program} {a : Analysis} (h : p.analyze = .ok a)
    (hdecl : ∀ v ∈ Event.violations a.events, v.priority ≠ .declaration) :
    Event.violations a.events = p.classes.flatMap a.table.classViolations := by
  cases hb : ClassTable.build p with
  | error v =>
    rw [Program.analyze, hb] at h
    cases h
  | ok t =>
    rw [Program.analyze, hb] at h
    cases h
    rcases t.traverse_untilSettled p with hall | ⟨hdecisive, -⟩
    · rw [hall, t.traverse_violations]
    · obtain ⟨v, hv, hd⟩ := Event.exists_decisive hdecisive
      exact absurd (of_decide_eq_true hd) (hdecl v hv)

/-! ## Reorderings -/

/-- A class is another with its members in some order. -/
structure ClassDecl.Reorders (c c' : ClassDecl) : Prop where
  /-- They have the same name. -/
  name : c.name = c'.name
  /-- They extend the same class. -/
  parent : c.parent = c'.parent
  /-- They have the same members. -/
  members : c.members.Perm c'.members

/-- A program is another with its classes, and the members inside each class, in some order. -/
def Program.Reorders (p p' : Program) : Prop :=
  ∃ cs, p.classes.Perm cs ∧ List.Forall₂ ClassDecl.Reorders cs p'.classes

/-- Of two declarations of one name that get along, one is a destructor. -/
theorem Declaration.Coexist.dtor {d d' : Declaration} (h : d.Coexist d')
    (hname : d.name = d'.name) : d.content = .dtor ∨ d'.content = .dtor :=
  (h hname).symm.imp And.left And.right

/-- A search that can find only one thing finds it in any order. -/
theorem findSome?_eq_of_perm {α β : Type} {f : α → Option β} {as bs : List α}
    (hp : as.Perm bs)
    (hunique : ∀ a ∈ as, ∀ b ∈ as, (f a).isSome = true → (f b).isSome = true → a = b) :
    as.findSome? f = bs.findSome? f := by
  have hfound : ∀ {xs : List α}, xs.Perm as → ∀ x,
      xs.findSome? f = some x ↔ ∃ a ∈ as, f a = some x := by
    intro xs hxs x
    constructor
    · intro h
      obtain ⟨a, ha, hfa⟩ := List.exists_of_findSome?_eq_some h
      exact ⟨a, hxs.mem_iff.mp ha, hfa⟩
    · rintro ⟨a, ha, hfa⟩
      cases h : xs.findSome? f with
      | none =>
        rw [List.findSome?_eq_none_iff] at h
        rw [h a (hxs.mem_iff.mpr ha)] at hfa
        cases hfa
      | some y =>
        obtain ⟨b, hb, hfb⟩ := List.exists_of_findSome?_eq_some h
        obtain rfl := hunique a ha b (hxs.mem_iff.mp hb) (by simp [hfa]) (by simp [hfb])
        rw [← hfb, hfa]
  apply Option.ext
  intro x
  rw [hfound (.refl _), hfound hp.symm]

namespace ClassDecl

variable {c c' : ClassDecl} (h : c.Reorders c')

include h

/-- A reordering of a class can be undone. -/
theorem Reorders.symm : c'.Reorders c := ⟨h.name.symm, h.parent.symm, h.members.symm⟩

/-- A reordered class declares the same. -/
theorem Reorders.declarations : c.declarations.Perm c'.declarations := by
  unfold ClassDecl.declarations
  rw [h.name]
  exact h.members.flatMap_right _

/-- Declarations that get along say the same in any order. -/
theorem Reorders.view (hc : c.declarations.Pairwise Declaration.Coexist) : c.view = c'.view := by
  have hone : ∀ (hit : Declaration → Prop),
      (∀ d d', hit d → hit d' → ¬ d.Coexist d') →
      ∀ d ∈ c.declarations, ∀ d' ∈ c.declarations, hit d → hit d' → d = d' := by
    intro hit hclash d hd d' hd' hhit hhit'
    by_contra hne
    exact hclash d d' hhit hhit' (hc.forall hd hd' hne)
  have hvalue : ∀ name, c.declarations.findSome? (·.value? name) =
      c'.declarations.findSome? (·.value? name) := by
    intro name
    refine findSome?_eq_of_perm h.declarations (hone _ ?_)
    intro d d' hd hd' hcoexist
    obtain ⟨_, hmember⟩ := Option.isSome_iff_exists.mp hd
    obtain ⟨_, hmember'⟩ := Option.isSome_iff_exists.mp hd'
    obtain ⟨hname, hcontent⟩ := Declaration.value?_eq_some.mp hmember
    obtain ⟨hname', hcontent'⟩ := Declaration.value?_eq_some.mp hmember'
    have hdtor := hcoexist.dtor (hname.trans hname'.symm)
    simp [hcontent, hcontent'] at hdtor
  have hctor : ∀ name, c.declarations.findSome? (·.ctor? name) =
      c'.declarations.findSome? (·.ctor? name) := by
    intro name
    refine findSome?_eq_of_perm h.declarations (hone _ ?_)
    intro d d' hd hd' hcoexist
    obtain ⟨_, hsignature⟩ := Option.isSome_iff_exists.mp hd
    obtain ⟨_, hsignature'⟩ := Option.isSome_iff_exists.mp hd'
    obtain ⟨hname, hcontent⟩ := Declaration.ctor?_eq_some.mp hsignature
    obtain ⟨hname', hcontent'⟩ := Declaration.ctor?_eq_some.mp hsignature'
    have hdtor := hcoexist.dtor (hname.trans hname'.symm)
    simp [hcontent, hcontent'] at hdtor
  simp only [ClassDecl.view, hvalue, hctor, h.name, h.parent]

end ClassDecl

/-! ## The class table of a reordering -/

namespace ClassDecl

section

variable {cs cs' : List ClassDecl} (h : List.Forall₂ ClassDecl.Reorders cs cs')

include h

/-- What holds of classes whatever the order of their members. -/
theorem forall_of_reorders {P : ClassDecl → Prop} (hP : ∀ c c', c.Reorders c' → P c → P c')
    (hall : ∀ c ∈ cs, P c) : ∀ c' ∈ cs', P c' := by
  induction h with
  | nil => exact List.forall_mem_nil _
  | cons hc _ ih =>
    rw [List.forall_mem_cons] at hall ⊢
    exact ⟨hP _ _ hc hall.1, ih hall.2⟩

private theorem names_of_reorders : cs.map (·.name.name) = cs'.map (·.name.name) := by
  induction h with
  | nil => rfl
  | cons hc _ ih => rw [List.map_cons, List.map_cons, hc.name, ih]

/-- A reordered class is found under its name, with what it declares. -/
theorem find?_of_reorders (hcs : ∀ c ∈ cs, c.declarations.Pairwise Declaration.Coexist)
    (name : String) :
    (cs.find? (·.name.name = name)).map ClassDecl.view =
      (cs'.find? (·.name.name = name)).map ClassDecl.view := by
  induction h with
  | nil => rfl
  | @cons c c' cs cs' hc _ ih =>
    rw [List.forall_mem_cons] at hcs
    by_cases hname : c.name.name = name
    · rw [List.find?_cons_of_pos (by simp [hname]),
        List.find?_cons_of_pos (by simp [← hc.name, hname])]
      exact congrArg some (hc.view hcs.1)
    · rw [List.find?_cons_of_neg (by simp [hname]),
        List.find?_cons_of_neg (by simp [← hc.name, hname])]
      exact ih hcs.2

private theorem any_members_of_reorders (f : Member → Bool) :
    (cs.any fun c => c.members.any f) = cs'.any fun c => c.members.any f := by
  induction h with
  | nil => rfl
  | cons hc _ ih => rw [List.any_cons, List.any_cons, hc.members.any_eq, ih]

private theorem flatMap_members_of_reorders {α : Type} (f : String → Member → List α) :
    (cs.flatMap fun c => c.members.flatMap (f c.name.name)).Perm
      (cs'.flatMap fun c => c.members.flatMap (f c.name.name)) := by
  induction h with
  | nil => rfl
  | cons hc _ ih =>
    rw [List.flatMap_cons, List.flatMap_cons, hc.name]
    exact (hc.members.flatMap_right _).append ih

end

/-- Classes with distinct names are found in any order. -/
theorem find?_of_perm {cs cs' : List ClassDecl} (h : cs.Perm cs')
    (hnames : (cs.map (·.name.name)).Nodup) (name : String) :
    cs.find? (·.name.name = name) = cs'.find? (·.name.name = name) := by
  rw [List.find?_eq_findSome?_guard, List.find?_eq_findSome?_guard]
  refine findSome?_eq_of_perm h fun c hc d hd hfc hfd => ?_
  have hc' : c.name.name = name := by simpa using hfc
  have hd' : d.name.name = name := by simpa using hfd
  exact List.inj_on_of_nodup_map hnames hc hd (hc'.trans hd'.symm)

end ClassDecl

namespace Program

variable {p p' : Program} (h : p.Reorders p')

include h

/-- A reordered program has the same class names. -/
theorem Reorders.names : (p.classes.map (·.name.name)).Perm (p'.classes.map (·.name.name)) := by
  obtain ⟨cs, hperm, hcs⟩ := h
  rw [← ClassDecl.names_of_reorders hcs]
  exact hperm.map _

/-- Whether the table can be built does not depend on the order. -/
theorem Reorders.exists_build (hb : ∃ t, ClassTable.build p = .ok t) :
    ∃ t', ClassTable.build p' = .ok t' := by
  have hnames := h.names
  obtain ⟨cs, hperm, hcs⟩ := h
  rw [ClassTable.exists_build_iff] at hb ⊢
  obtain ⟨hnodup, hparents, hdecls⟩ := hb
  refine ⟨(hnames.cons ioClass).nodup_iff.mp hnodup, ?_, ?_⟩
  · refine ClassDecl.forall_of_reorders hcs ?_ fun c hc parent hparent => ?_
    · intro c c' hc hP parent hparent
      exact hP parent (hc.parent.trans hparent)
    · refine (hparents c (hperm.mem_iff.mpr hc) parent hparent).imp_right fun hd => ?_
      rw [← List.mem_map] at hd ⊢
      exact hnames.mem_iff.mp hd
  · refine ClassDecl.forall_of_reorders hcs ?_ fun c hc => hdecls c (hperm.mem_iff.mpr hc)
    intro c c' hc hP
    exact (hc.declarations.pairwise_iff Declaration.Coexist.symm).mp hP

/-- A program and its reordering declare the same classes. -/
theorem Reorders.declared_eq (hb : ∃ t, ClassTable.build p = .ok t) :
    p.declared = p'.declared := by
  obtain ⟨hnodup, -, hdecls⟩ := ClassTable.exists_build_iff.mp hb
  obtain ⟨cs, hperm, hcs⟩ := h
  funext name
  unfold Program.declared
  rw [ClassDecl.find?_of_perm hperm (List.nodup_cons.mp hnodup).2,
    ClassDecl.find?_of_reorders hcs fun c hc => hdecls c (hperm.mem_iff.mpr hc)]

/-- A reordering of a program can be undone. -/
theorem Reorders.symm : p'.Reorders p := by
  obtain ⟨cs, hperm, hcs⟩ := h
  obtain ⟨cs', hflip, hperm'⟩ := List.perm_comp_forall₂ hperm hcs
  exact ⟨cs', hperm'.symm, hflip.flip.imp fun _ _ hc => hc.symm⟩

/-- Some member of a program meets a test just if one of its reordering does. -/
theorem Reorders.any_members (f : Member → Bool) :
    (p.classes.any fun c => c.members.any f) = p'.classes.any fun c => c.members.any f := by
  obtain ⟨cs, hperm, hcs⟩ := h
  exact hperm.any_eq.trans (ClassDecl.any_members_of_reorders hcs f)

/-- What is listed by members is reordered with them. -/
theorem Reorders.flatMap_members {α : Type} (f : String → Member → List α) :
    (p.classes.flatMap fun c => c.members.flatMap (f c.name.name)).Perm
      (p'.classes.flatMap fun c => c.members.flatMap (f c.name.name)) := by
  obtain ⟨cs, hperm, hcs⟩ := h
  exact (hperm.flatMap_right _).trans (ClassDecl.flatMap_members_of_reorders hcs f)

end Program

/-! ## The answer for a reordering -/

/-- The smallest rank in a list does not depend on the order. -/
theorem Violation.gravest?_rank_of_perm {vs ws : List Violation} (h : vs.Perm ws) :
    (gravest? vs).map rank = (gravest? ws).map rank := by
  cases hv : gravest? vs with
  | none =>
    obtain rfl := (gravest?_eq_none_iff vs).mp hv
    rw [h.nil_eq] at hv
    rw [hv]
  | some v =>
    cases hw : gravest? ws with
    | none =>
      obtain rfl := (gravest?_eq_none_iff ws).mp hw
      rw [h.eq_nil] at hv
      cases hv
    | some w =>
      have hv' := (gravest?_eq_some_iff _ _).mp hv
      have hw' := (gravest?_eq_some_iff _ _).mp hw
      exact congrArg some (Nat.le_antisymm (hv'.rank_le (h.mem_iff.mpr hw'.mem))
        (hw'.rank_le (h.mem_iff.mp hv'.mem)))

private theorem Priority.eq_of_rank_eq {a b : Priority} (h : a.rank = b.rank) : a = b := by
  cases a <;> cases b <;> first | rfl | cases h

namespace ClassTable

/-- The priority of an answer depends only on which violations there are and whether the program
can start. -/
theorem answer_priority_of_perm {t t' : ClassTable} (ht : t.hasEntryPoint = t'.hasEntryPoint)
    {vs ws : List Violation} (h : vs.Perm ws) :
    (t.answer vs).mapError Violation.priority = (t'.answer ws).mapError Violation.priority := by
  have hrank := Violation.gravest?_rank_of_perm h
  rw [answer, answer, ht]
  cases hvs : Violation.gravest? vs with
  | none =>
    rw [hvs, Option.map_none, eq_comm, Option.map_eq_none_iff] at hrank
    rw [hrank]
  | some v =>
    rw [hvs, Option.map_some, eq_comm, Option.map_eq_some_iff] at hrank
    obtain ⟨w, hw, hrank⟩ := hrank
    rw [hw]
    exact congrArg Except.error (Priority.eq_of_rank_eq hrank.symm)

/-- A member alone has the same violations under tables with the same classes. -/
theorem memberViolations_congr {t t' : ClassTable} (ht : t.classes = t'.classes) :
    t.memberViolations = t'.memberViolations := by
  funext className m
  have hagrees : (Context.ofClass .exhaustive t className).Agrees
      (Context.ofClass .exhaustive t' className) := ⟨ht, rfl, rfl, rfl, rfl⟩
  have hafter := Context.member_after hagrees rfl rfl [] m .start
  rw [Progress.after_nil, Progress.after_nil] at hafter
  rw [memberViolations, memberViolations, hafter]

/-- A table is built with the entry point that the program has. -/
theorem hasEntryPoint_of_build {p : Program} {t : ClassTable} (h : build p = .ok t) :
    t.hasEntryPoint = p.classes.any fun c => c.members.any isEntryPoint := by
  obtain ⟨-, es, -, rfl⟩ := build_eq_ok_iff.mp h
  rfl

/-- What a computation fails with has the priority of a declaration. -/
def FailsAsDeclaration {α : Type} (x : Except Violation α) : Prop :=
  ∀ v, x = .error v → v.priority = .declaration

/-- What succeeds does not fail as anything. -/
theorem FailsAsDeclaration.ok {α : Type} (a : α) : FailsAsDeclaration (.ok a) := nofun

/-- Steps that fail as declarations do fail so in a row. -/
theorem FailsAsDeclaration.bind {α β : Type} {x : Except Violation α} {f : α → Except Violation β}
    (hx : FailsAsDeclaration x) (hf : ∀ a, FailsAsDeclaration (f a)) :
    FailsAsDeclaration (x >>= f) := by
  cases x with
  | error v => rintro _ ⟨⟩; exact hx v rfl
  | ok a => exact hf a

private theorem failsAsDeclaration_redeclared {α : Type} (subject : String) (span : Span)
    (added : Except Declared α) : FailsAsDeclaration (redeclared subject span added) := by
  cases added with
  | ok a => exact .ok a
  | error what => rintro v ⟨⟩; rfl

/-- A member that is not entered fails as a declaration. -/
theorem failsAsDeclaration_declareMember (m : Member) (e : ClassEntry) :
    FailsAsDeclaration (declareMember m e) := by
  match m with
  | .attribute decl span =>
    have hall : ∀ ds e, FailsAsDeclaration (declareAttributes decl ds e) := by
      intro ds
      induction ds with
      | nil => exact fun e => .ok e
      | cons d ds ih => exact fun e => .bind (failsAsDeclaration_redeclared _ _ _) ih
    exact hall decl.declarators e
  | .method .. | .ctor .. | .dtor .. => exact failsAsDeclaration_redeclared _ _ _

private theorem failsAsDeclaration_declareMembers (ms : List Member) (e : ClassEntry) :
    FailsAsDeclaration (declareMembers ms e) := by
  induction ms generalizing e with
  | nil => exact .ok e
  | cons m ms ih => exact .bind (failsAsDeclaration_declareMember m e) ih

/-- So does a class. -/
theorem failsAsDeclaration_declareClass (known : List String) (c : ClassDecl) :
    FailsAsDeclaration (declareClass known c) := by
  unfold declareClass
  split
  · split
    · exact failsAsDeclaration_declareMembers _ _
    · rintro v ⟨⟩; rfl
  · exact failsAsDeclaration_declareMembers _ _

private theorem failsAsDeclaration_declareClasses (known : List String) (cs : List ClassDecl) :
    FailsAsDeclaration (declareClasses known cs) := by
  induction cs with
  | nil => exact .ok []
  | cons c cs ih =>
    exact .bind (failsAsDeclaration_declareClass known c) fun e => .bind ih fun es => .ok (e :: es)

/-- Whatever stands in the way of a class table is a matter of declarations. -/
theorem failsAsDeclaration_build (p : Program) : FailsAsDeclaration (build p) := by
  unfold build
  split
  · rintro v ⟨⟩; rfl
  · exact .bind (failsAsDeclaration_declareClasses _ _) fun es => .ok _

end ClassTable

namespace Program

/-- A program and its reordering get answers of the same priority. -/
theorem Reorders.check_priority {p p' : Program} (h : p.Reorders p') :
    p.check.mapError Violation.priority = p'.check.mapError Violation.priority := by
  cases hb : ClassTable.build p with
  | ok t =>
    obtain ⟨t', hb'⟩ := h.exists_build ⟨t, hb⟩
    have hclasses : t.classes = t'.classes := by
      rw [ClassTable.classes_of_build hb, ClassTable.classes_of_build hb', h.declared_eq ⟨t, hb⟩]
    have hentry : t.hasEntryPoint = t'.hasEntryPoint := by
      rw [ClassTable.hasEntryPoint_of_build hb, ClassTable.hasEntryPoint_of_build hb',
        h.any_members]
    rw [check_of_build_ok hb, check_of_build_ok hb', ClassTable.traverse_violations,
      ClassTable.traverse_violations]
    refine ClassTable.answer_priority_of_perm hentry ?_
    unfold ClassTable.classViolations
    rw [← ClassTable.memberViolations_congr hclasses]
    exact h.flatMap_members t.memberViolations
  | error v =>
    cases hb' : ClassTable.build p' with
    | ok t' =>
      obtain ⟨t, ht⟩ := h.symm.exists_build ⟨t', hb'⟩
      rw [hb] at ht
      cases ht
    | error v' =>
      rw [check_of_build_error hb, check_of_build_error hb']
      refine congrArg Except.error ?_
      rw [ClassTable.failsAsDeclaration_build p v hb, ClassTable.failsAsDeclaration_build p' v' hb']

/-- Members are checked independently: without early stop, the violations of a program are those
that its members have when each is checked alone, one after another. So a program and any
reordering of its classes and of the members inside each class pass together, or fail with
violations of the same priority. -/
theorem check_members_independently :
    (∀ (p : Program) (t : ClassTable), ClassTable.build p = .ok t →
      Event.violations (t.traverse .exhaustive p) =
        p.classes.flatMap fun c => c.members.flatMap (t.memberViolations c.name.name)) ∧
    ∀ p p' : Program, p.Reorders p' →
      p.check.mapError Violation.priority = p'.check.mapError Violation.priority :=
  ⟨fun p t _ => t.traverse_violations p, fun _ _ h => h.check_priority⟩

/-- A counter that starts with a truth value. -/
def misfitCounter : Member :=
  .attribute ⟨false, false, .primitive .int ⟨0, 0⟩, [⟨"count", some (.bool true ⟨0, 0⟩), ⟨0, 0⟩⟩]⟩
    ⟨0, 0⟩

/-- A method to start with that leaves a loop where there is none. -/
def misfitMain : Member :=
  .method ⟨true, none, mainName, [], ⟨[.breakLoop ⟨0, 0⟩], ⟨0, 0⟩⟩⟩ ⟨0, 0⟩

/-- A class that extends the class of misfits with a destructor of another name. -/
def misfitHeir : ClassDecl :=
  ⟨⟨"Heir", ⟨0, 0⟩⟩, some ⟨"Misfits", ⟨0, 0⟩⟩, [.dtor ⟨"Misfits", ⟨[], ⟨0, 0⟩⟩⟩ ⟨0, 0⟩], ⟨0, 0⟩⟩

/-- Two classes with a violation in each member. -/
def misfits : Program :=
  ⟨[⟨⟨"Misfits", ⟨0, 0⟩⟩, none, [misfitMain, misfitCounter], ⟨0, 0⟩⟩, misfitHeir], ⟨0, 0⟩⟩

/-- The same the other way round. -/
def misfitsReversed : Program :=
  ⟨[misfitHeir, ⟨⟨"Misfits", ⟨0, 0⟩⟩, none, [misfitCounter, misfitMain], ⟨0, 0⟩⟩], ⟨0, 0⟩⟩

/-- The table of their classes. -/
def misfitsTable : ClassTable where
  entries := [ClassTable.ioEntry,
    ⟨"Misfits", none, [
      ("count", ⟨some (.attribute ⟨.int, false, false, true⟩), none, false⟩),
      ("main", ⟨some (.method ⟨none, [], true⟩), none, false⟩)]⟩,
    ⟨"Heir", some "Misfits", [("Misfits", ⟨none, none, true⟩)]⟩]
  hasEntryPoint := true

/-- Each member adds its own violation, and both orders are rejected for the types. -/
theorem misfits_checked_independently :
    (Event.violations (misfitsTable.traverse .exhaustive misfits)).length = 3 ∧
      Event.violations (misfitsTable.traverse .exhaustive misfits) =
        misfitsTable.memberViolations "Misfits" misfitMain ++
          misfitsTable.memberViolations "Misfits" misfitCounter ++
          misfitsTable.memberViolations "Heir" (.dtor ⟨"Misfits", ⟨[], ⟨0, 0⟩⟩⟩ ⟨0, 0⟩) ∧
      misfits.Reorders misfitsReversed ∧
      misfits.check.mapError Violation.priority = .error .typeMismatch ∧
      misfitsReversed.check.mapError Violation.priority = .error .typeMismatch := by
  have hb : ClassTable.build misfits = .ok misfitsTable := by decide +kernel
  have hr : misfits.Reorders misfitsReversed :=
    ⟨_, .swap _ _ _, .cons ⟨rfl, rfl, .refl _⟩ (.cons ⟨rfl, rfl, .swap _ _ _⟩ .nil)⟩
  have hone : misfits.check.mapError Violation.priority = .error .typeMismatch := by
    decide +kernel
  refine ⟨by decide +kernel, ?_, hr, hone, ?_⟩
  · exact (check_members_independently.1 misfits misfitsTable hb).trans
      (by simp [misfits, misfitHeir])
  · exact (check_members_independently.2 _ _ hr).symm.trans hone

end Program

end ClassCheck
