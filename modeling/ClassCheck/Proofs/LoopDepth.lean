import ClassCheck.Proofs.Breaches
import ClassCheck.Proofs.Independence

/-!
# The loops around a statement

A frame counts the loops around it. The count is copied to every frame put on it, raised for the
body of a loop and gone with the frames of the loop. So whenever the check comes to a statement,
however far it goes, the innermost frame counts exactly the loops of the member that the
statement stands in. A program whose names are all declared, and none of them twice, is therefore
reported for exactly the statements that leave or continue a loop and stand in none.
-/

namespace ClassCheck

/-! ## Loops and jumps -/

namespace Stmt

/-- Whether a statement is a loop. -/
def isLoop : Stmt → Bool
  | .loop .. => true
  | _ => false

/-- Whether a statement leaves a loop or goes on with its next round. -/
def isJump : Stmt → Bool
  | .breakLoop _ | .continueLoop _ => true
  | _ => false

end Stmt

namespace Nesting

/-- The number of loops that a statement stands in. All that stands in a loop stands in its
body. -/
def loops (n : Nesting) : Nat := n.around.countP Stmt.isLoop

/-- Whether a statement leaves or continues a loop and stands in none. -/
def isStray (n : Nesting) : Bool := n.stmt.isJump && n.loops = 0

end Nesting

/-! ## Counting loops -/

/-- Names that are added count no loops. -/
theorem Scope.Adds.loopDepth {s s' : Scope} (h : s.Adds s') :
    s'.inner.loopDepth = s.inner.loopDepth := by
  obtain ⟨old, new, hinner, -, -⟩ := h
  rw [hinner]

/-- The innermost frame counts the loops among statements around. -/
def Progress.Counts (p : Progress) (around : List Stmt) : Prop :=
  p.scope.inner.loopDepth = around.countP Stmt.isLoop

namespace Progress.Counts

variable {p : Progress} {around : List Stmt} (h : p.Counts around)

include h

/-- Names that are declared do not matter. -/
theorem of_adds {q : Progress} (hq : p.scope.Adds q.scope) : q.Counts around :=
  hq.loopDepth.trans h

/-- Inside of a statement that is no loop, a frame put on counts the same loops. -/
theorem inside {s : Stmt} (hs : s.isLoop = false) : (p.inScope .push).Counts (s :: around) := by
  rw [Counts, List.countP_cons_of_neg (by simp [hs])]
  exact h

/-- In the body of a loop one more is counted. -/
theorem body (ctx : Context) {s : Stmt} (hs : s.isLoop = true) (id : Ident) (first last : Expr) :
    (((ctx.loopHead id first last s p).inScope .enterLoop).inScope .push).Counts (s :: around) := by
  have hhead : (ctx.loopHead id first last s p).scope.inner.loopDepth = _ :=
    (ctx.loopHead_adds id first last s p).loopDepth.trans h
  rw [Counts, List.countP_cons_of_pos hs, ← hhead]
  rfl

end Progress.Counts

namespace Context

mutual

/-- Wherever the check of a statement comes to, the loops around are counted. -/
theorem loopDepth_of_mem_arrivals (ctx : Context) (s : Stmt) {around : List Stmt} {p : Progress}
    (h : p.Counts around) {a : Arrival} (ha : a ∈ ctx.arrivals around s p) :
    a.scope.inner.loopDepth = a.place.loops := by
  rw [arrivals_eq, List.mem_cons] at ha
  rcases ha with rfl | ha
  · exact h
  split at ha
  · cases ha
  cases s with
  | ifThen cond thenBranch span =>
    have hcond := h.of_adds (q := ctx.condition cond (.ifThen cond thenBranch span) p)
      (by rw [condition_scope]; exact .refl _)
    exact loopDepth_of_mem_arrivals ctx thenBranch (hcond.inside rfl) ha
  | ifElse cond thenBranch elseBranch span =>
    have hcond := h.of_adds (q := ctx.condition cond (.ifElse cond thenBranch elseBranch span) p)
      (by rw [condition_scope]; exact .refl _)
    rcases List.mem_append.mp ha with ha | ha
    · exact loopDepth_of_mem_arrivals ctx thenBranch (hcond.inside rfl) ha
    · have hthen := hcond.of_adds (ctx.nested_fills thenBranch _).adds
      exact loopDepth_of_mem_arrivals ctx elseBranch (hthen.inside rfl) ha
  | loop id first last direction body span =>
    exact loopDepth_of_mem_arrivals ctx body (h.body ctx rfl id first last) ha
  | block stmts span => exact loopDepth_of_mem_allArrivals ctx stmts (h.inside rfl) ha
  | _ => cases ha

private theorem loopDepth_of_mem_allArrivals (ctx : Context) (ss : List Stmt) {around : List Stmt}
    {p : Progress} (h : p.Counts around) {a : Arrival} (ha : a ∈ ctx.allArrivals around ss p) :
    a.scope.inner.loopDepth = a.place.loops := by
  cases ss with
  | nil =>
    rw [allArrivals_nil] at ha
    cases ha
  | cons s ss =>
    rw [allArrivals_cons] at ha
    rcases List.mem_append.mp ha with ha | ha
    · exact loopDepth_of_mem_arrivals ctx s h ha
    · exact loopDepth_of_mem_allArrivals ctx ss (h.of_adds (ctx.statement_adds s p)) ha

end

/-- No loop is around the body of a member. -/
theorem memberEntry_counts (ctx : Context) (m : Member) {p : Progress} (hp : p.scope = .global) :
    (ctx.memberEntry m p).Counts [] := by
  have hhead : ((ctx.memberHead m p).inScope .push).Counts [] := by
    rw [Progress.Counts, Progress.inScope_scope, memberHead_scope, hp]
    rfl
  exact hhead.of_adds ((ctx.inMember m).declareParams_adds m.params _)

/-- At each statement of members in order the innermost frame counts the loops around it. -/
theorem loopDepth_of_mem_membersTrace (ctx : Context) (ms : List Member) {p : Progress}
    (hp : p.scope = .global) {a : Arrival}
    (ha : a ∈ Step.collect Step.arrivals p (ctx.membersTrace ms p)) :
    a.scope.inner.loopDepth = a.place.loops := by
  induction ms generalizing p with
  | nil => cases ha
  | cons m ms ih =>
    rw [membersTrace] at ha
    split at ha
    · cases ha
    rw [Step.collect_append, arrivals_memberTrace, runAll_memberTrace] at ha
    rcases List.mem_append.mp ha with ha | ha
    · exact loopDepth_of_mem_allArrivals _ m.stmts (ctx.memberEntry_counts m hp) ha
    · exact ih (ctx.member_global m hp) ha

end Context

/-- The same at each statement of classes in order. -/
theorem ClassTable.loopDepth_of_mem_classesTrace (t : ClassTable) (walk : Walk)
    (cs : List ClassDecl) {p : Progress} (hp : p.scope = .global) {a : Arrival}
    (ha : a ∈ Step.collect Step.arrivals p (t.classesTrace walk cs p)) :
    a.scope.inner.loopDepth = a.place.loops := by
  induction cs generalizing p with
  | nil => cases ha
  | cons c cs ih =>
    rw [classesTrace] at ha
    split at ha
    · cases ha
    rw [Step.collect_append, runAll_class] at ha
    rcases List.mem_append.mp ha with ha | ha
    · have hnoted : (p.note (.enterClass c.name.name)).scope = .global := hp
      exact Context.loopDepth_of_mem_membersTrace _ c.members hnoted ha
    · exact ih (t.checkClass_global walk c hp) ha

/-! ## Coming to all statements -/

/-- What a check comes to is among statements in order, and nothing is left out unless the
traversal may stop early. -/
structure Walk.Covers (walk : Walk) (as : List Arrival) (ns : List Nesting) : Prop where
  /-- Nothing else is come to. -/
  sublist : (as.map (·.place)).Sublist ns
  /-- Nothing is left out. -/
  complete : walk = .exhaustive → as.map (·.place) = ns

namespace Walk.Covers

variable {walk : Walk}

/-- Nothing covers nothing. -/
theorem nil : walk.Covers [] [] := ⟨.slnil, fun _ => rfl⟩

/-- A statement that is come to covers itself. -/
theorem cons {as : List Arrival} {ns : List Nesting} (h : walk.Covers as ns) (n : Nesting)
    (scope : Scope) : walk.Covers (⟨n, scope⟩ :: as) (n :: ns) :=
  ⟨h.sublist.cons_cons n, fun hw => congrArg (n :: ·) (h.complete hw)⟩

/-- What covers two parts covers both together. -/
theorem append {as bs : List Arrival} {ns ms : List Nesting} (has : walk.Covers as ns)
    (hbs : walk.Covers bs ms) : walk.Covers (as ++ bs) (ns ++ ms) := by
  constructor
  · rw [List.map_append]
    exact has.sublist.append hbs.sublist
  · intro hw
    rw [List.map_append, has.complete hw, hbs.complete hw]

/-- A traversal that has stopped comes to nothing more. -/
theorem stopped {ns : List Nesting} (hw : walk ≠ .exhaustive) : walk.Covers [] ns :=
  ⟨List.nil_sublist ns, fun h => absurd h hw⟩

end Walk.Covers

namespace Context

private theorem walk_ne_of_halts {ctx : Context} {p : Progress} (h : ctx.halts p = true) :
    ctx.walk ≠ .exhaustive := by
  intro hw
  rw [halts_of_exhaustive hw] at h
  cases h

mutual

/-- The arrivals at a statement cover all statements in it. -/
theorem arrivals_cover (ctx : Context) (s : Stmt) (around : List Stmt) (p : Progress) :
    ctx.walk.Covers (ctx.arrivals around s p) (s.nestings around) := by
  rw [arrivals_eq, Stmt.nestings.eq_def]
  refine Walk.Covers.cons ?_ _ _
  split
  · rename_i hh
    exact .stopped (walk_ne_of_halts hh)
  cases s with
  | ifThen cond thenBranch span => exact arrivals_cover ctx thenBranch _ _
  | ifElse cond thenBranch elseBranch span =>
    exact (arrivals_cover ctx thenBranch _ _).append (arrivals_cover ctx elseBranch _ _)
  | loop id first last direction body span => exact arrivals_cover ctx body _ _
  | block stmts span => exact allArrivals_cover ctx stmts _ _
  | _ => exact .nil

private theorem allArrivals_cover (ctx : Context) (ss : List Stmt) (around : List Stmt)
    (p : Progress) :
    ctx.walk.Covers (ctx.allArrivals around ss p) (Stmt.allNestings around ss) := by
  cases ss with
  | nil =>
    rw [allArrivals_nil, Stmt.allNestings]
    exact .nil
  | cons s ss =>
    rw [allArrivals_cons, Stmt.allNestings]
    exact (arrivals_cover ctx s around p).append (allArrivals_cover ctx ss around _)

end

/-- Those of members cover the statements of their bodies. -/
theorem membersTrace_cover (ctx : Context) (ms : List Member) (p : Progress) :
    ctx.walk.Covers (Step.collect Step.arrivals p (ctx.membersTrace ms p))
      (ms.flatMap fun m => Stmt.allNestings [] m.stmts) := by
  induction ms generalizing p with
  | nil => exact .nil
  | cons m ms ih =>
    rw [membersTrace]
    split
    · rename_i hh
      exact .stopped (walk_ne_of_halts hh)
    · have hbody := (ctx.inMember m).allArrivals_cover m.stmts [] (ctx.memberEntry m p)
      rw [inMember_walk] at hbody
      rw [Step.collect_append, arrivals_memberTrace, runAll_memberTrace]
      exact hbody.append (ih _)

end Context

/-- Those of classes cover the statements of all members. -/
theorem ClassTable.classesTrace_cover (t : ClassTable) (walk : Walk) (cs : List ClassDecl)
    (p : Progress) : walk.Covers (Step.collect Step.arrivals p (t.classesTrace walk cs p))
      (cs.flatMap fun c => c.members.flatMap fun m => Stmt.allNestings [] m.stmts) := by
  induction cs generalizing p with
  | nil => exact .nil
  | cons c cs ih =>
    rw [classesTrace]
    split
    · rename_i hh
      refine .stopped ?_
      rintro rfl
      cases hh
    · have hmembers := (Context.ofClass walk t c.name.name).membersTrace_cover c.members
        (p.note (.enterClass c.name.name))
      rw [Step.collect_append, runAll_class]
      exact hmembers.append (ih _)

/-! ## Leaving and continuing loops -/

namespace Arrival

/-- Whether a statement leaves or continues a loop where none is counted. -/
def isStray (a : Arrival) : Bool := a.place.stmt.isJump && !a.scope.inLoop

/-- The violations of statements that leave or continue a loop where none is counted. -/
def faults (as : List Arrival) : List Violation :=
  (as.filter isStray).map (·.place.stmt.breaks .mustInLoop)

@[simp] private theorem faults_nil : faults [] = [] := rfl

@[simp] private theorem faults_append (as bs : List Arrival) :
    faults (as ++ bs) = faults as ++ faults bs := by
  simp [faults]

/-- A statement of another sort is not reported. -/
theorem faults_cons_of_not_jump {n : Nesting} (hn : n.stmt.isJump = false) (scope : Scope)
    (as : List Arrival) : faults (⟨n, scope⟩ :: as) = faults as := by
  simp [faults, isStray, hn]

/-- The loops that a statement stands in decide if they are all counted. -/
theorem faults_eq {as : List Arrival} (h : ∀ a ∈ as, a.scope.inner.loopDepth = a.place.loops) :
    faults as = ((as.map (·.place)).filter Nesting.isStray).map (·.stmt.breaks .mustInLoop) := by
  have hstray : ∀ a ∈ as, a.isStray = a.place.isStray := by
    intro a ha
    rw [isStray, Nesting.isStray, Scope.inLoop, h a ha]
    congr 1
    rw [Bool.eq_iff_iff]
    simp
  rw [faults, List.filter_congr hstray, List.filter_map, List.map_map]
  rfl

end Arrival

namespace Context

section

variable (ctx : Context) (stmt : Stmt) (p : Progress)

private theorem breaches_writeName (name : String) (span : Span) :
    Event.breaches .mustInLoop (ctx.writeName stmt name span p).2.events =
      Event.breaches .mustInLoop p.events := by
  unfold writeName
  split
  · dsimp only
    split
    · rfl
    · exact p.breaches_report (by simp)
  · split
    · exact p.breaches_demand _ (by simp)
    · split <;> exact p.breaches_report (by simp)

private theorem breaches_writeAttribute (object : Expr) (name owner : String)
    (info : AttributeInfo) :
    Event.breaches .mustInLoop (ctx.writeAttribute stmt object name owner info p).events =
      Event.breaches .mustInLoop p.events := by
  unfold writeAttribute
  split
  · split
    · rfl
    · exact p.breaches_report (by simp)
  · rfl

/-- Writing to a place never asks for a loop. -/
theorem breaches_target (place : Expr) :
    Event.breaches .mustInLoop (ctx.target stmt place p).2.events =
      Event.breaches .mustInLoop p.events := by
  have hvalue : ∀ e, Event.breaches .mustInLoop (p.absorb (ctx.valueType p.scope e)).events =
      Event.breaches .mustInLoop p.events :=
    fun e => p.breaches_absorb (spares_valueType (by decide) ctx p.scope e)
  unfold target
  split
  · exact ctx.breaches_writeName stmt p _ _
  · rename_i object name span
    simp only [withValue]
    have hfound := (Progress.breaches_absorb _ (spares_attribute? (by decide) ctx object name span
      (ctx.valueType p.scope object).value)).trans (hvalue object)
    split
    · exact (ctx.breaches_writeAttribute stmt _ object name _ _).trans hfound
    · exact hfound
  · exact hvalue _

/-- Nor does an assignment. -/
theorem breaches_assignment (place value : Expr) :
    Event.breaches .mustInLoop (ctx.assignment place value stmt p).events =
      Event.breaches .mustInLoop p.events := by
  have htarget := (ctx.breaches_target stmt (p.absorb (ctx.valueType p.scope value)) place).trans
    (p.breaches_absorb (spares_valueType (by decide) ctx p.scope value))
  simp only [assignment, withValue]
  split
  · rename_i hq
    rw [hq] at htarget
    exact (Progress.breaches_demand _ _ (by simp)).trans htarget
  · rename_i hq
    rw [hq] at htarget
    exact htarget

/-- Nor does the head of a loop. -/
theorem breaches_loopHead (id : Ident) (first last : Expr) :
    Event.breaches .mustInLoop (ctx.loopHead id first last stmt p).events =
      Event.breaches .mustInLoop p.events := by
  refine (breaches_bounds (by decide) ctx _ first last stmt).trans ?_
  unfold counter
  split
  · exact (Progress.breaches_demand _ _ (by simp)).trans (Progress.breaches_demand _ _ (by simp))
  · exact Progress.breaches_define _ _ _

end

/-- A statement that leaves or continues a loop is reported where the check arrives at it outside
of loops. -/
theorem breaches_jump {s : Stmt} (hs : s.isJump = true) (around : List Stmt) (p : Progress) :
    Event.breaches .mustInLoop (p.demand p.scope.inLoop (s.breaks .mustInLoop)).events =
      Event.breaches .mustInLoop p.events ++ Arrival.faults [⟨⟨s, around⟩, p.scope⟩] := by
  cases hloop : p.scope.inLoop with
  | true => simp [Progress.demand, Arrival.faults, Arrival.isStray, hloop]
  | false =>
    have hstray : Arrival.faults [⟨⟨s, around⟩, p.scope⟩] = [s.breaks .mustInLoop] := by
      simp [Arrival.faults, Arrival.isStray, hs, hloop]
    have hreported : Event.breaches .mustInLoop [.violation (s.breaks .mustInLoop)] =
        [s.breaks .mustInLoop] := by
      simp [Event.breaches, Event.violations, Event.violation?]
    rw [hstray, ← hreported]
    exact Event.breaches_append _ _ _

/-- What a statement has besides statements breaks the rule if it leaves or continues a loop where
none is counted. -/
theorem breaches_own (ctx : Context) (place : Nesting) (p : Progress) :
    Event.breaches .mustInLoop (ctx.own place.stmt p).events =
      Event.breaches .mustInLoop p.events ++ Arrival.faults [⟨place, p.scope⟩] := by
  obtain ⟨s, around⟩ := place
  cases hs : s.isJump with
  | true =>
    cases s with
    | breakLoop span => exact breaches_jump rfl around p
    | continueLoop span => exact breaches_jump rfl around p
    | _ => cases hs
  | false =>
    rw [Arrival.faults_cons_of_not_jump hs, Arrival.faults_nil, List.append_nil]
    cases s with
    | declare isFinal type ds span =>
      exact (breaches_declareLocals (by decide) ctx _ isFinal _ _ ds).trans
        (p.breaches_absorb (spares_demandType (by decide) ctx type))
    | assign place value span => exact ctx.breaches_assignment _ p place value
    | ifThen cond thenBranch span => exact breaches_condition (by decide) ctx p cond _
    | ifElse cond thenBranch elseBranch span => exact breaches_condition (by decide) ctx p cond _
    | loop id first last direction body span => exact ctx.breaches_loopHead _ p id first last
    | returnValue value span => exact breaches_returned (by decide) ctx p value _
    | call invocation span =>
      exact p.breaches_absorb (spares_exprType (by decide) ctx _ invocation)
    | block stmts span => rfl
    | breakLoop span => cases hs
    | continueLoop span => cases hs

end Context

namespace Step

/-- Of the statements that a step comes to, those that leave or continue a loop where none is
counted are reported. -/
theorem breaches_run {step : Step} (hw : ∀ ctx, step.ctx? = some ctx → ctx.walk = .exhaustive)
    (p : Progress) :
    Event.breaches .mustInLoop (step.run p).events =
      Event.breaches .mustInLoop p.events ++ Arrival.faults (step.arrivals p) := by
  cases step with
  | stmt ctx place =>
    rw [run_stmt (Context.halts_of_exhaustive (hw ctx rfl) p)]
    exact ctx.breaches_own place p
  | enterClass name =>
    have hnote : Event.breaches .mustInLoop (p.note (.enterClass name)).events =
        Event.breaches .mustInLoop p.events := p.breaches_absorb (by simp [Checked.Spares])
    exact hnote.trans (List.append_nil _).symm
  | head ctx m =>
    exact (Context.breaches_memberHead (by decide) ctx p m).trans (List.append_nil _).symm
  | params ctx ps =>
    exact (Context.breaches_declareParams (by decide) ctx p ps).trans (List.append_nil _).symm
  | _ => exact (List.append_nil _).symm

/-- So are the statements that steps come to. -/
theorem breaches_runAll {steps : List Step}
    (hw : ∀ step ∈ steps, ∀ ctx, step.ctx? = some ctx → ctx.walk = .exhaustive) (p : Progress) :
    Event.breaches .mustInLoop (runAll p steps).events =
      Event.breaches .mustInLoop p.events ++ Arrival.faults (collect arrivals p steps) := by
  induction steps generalizing p with
  | nil => exact (List.append_nil _).symm
  | cons step steps ih =>
    obtain ⟨hstep, hsteps⟩ := List.forall_mem_cons.mp hw
    rw [runAll_cons, ih hsteps, breaches_run hstep, collect_cons, Arrival.faults_append,
      List.append_assoc]

end Step

/-- A traversal that leaves nothing out reports the statements that leave or continue a loop and
stand in none. -/
theorem ClassTable.breaches_traverse (t : ClassTable) (p : Program) :
    Event.breaches .mustInLoop (t.traverse .exhaustive p) =
      (p.nestings.filter Nesting.isStray).map (·.stmt.breaks .mustInLoop) := by
  have hw : ∀ step ∈ t.trace .exhaustive p, ∀ ctx, step.ctx? = some ctx →
      ctx.walk = .exhaustive := fun step hstep ctx hctx =>
    ((t.inClasses_classesTrace .exhaustive (List.Subset.refl _) .start step hstep).of_ctx? hctx).1
  have hsteps := Step.breaches_runAll hw .start
  rw [events_runAll_trace] at hsteps
  refine hsteps.trans ((Arrival.faults_eq fun a ha =>
    t.loopDepth_of_mem_classesTrace .exhaustive p.classes rfl ha).trans ?_)
  rw [(t.classesTrace_cover .exhaustive p.classes .start).complete rfl]
  rfl

namespace Program

/-- At every statement that the check of a program comes to, the innermost frame counts the loops
that the statement stands in. A program whose names are all declared, and none twice, is reported
for its statements that leave or continue a loop and stand in none, in order and once each. -/
theorem analyze_reports_stray_jumps (p : Program) :
    (∀ (t : ClassTable) (walk : Walk),
      (∀ a ∈ t.arrivals walk p, a.scope.inner.loopDepth = a.place.loops) ∧
        walk.Covers (t.arrivals walk p) p.nestings) ∧
    ∀ a, p.analyze = .ok a → (∀ v ∈ Event.violations a.events, v.priority ≠ .declaration) →
      Event.breaches .mustInLoop a.events =
        (p.nestings.filter Nesting.isStray).map (·.stmt.breaks .mustInLoop) := by
  constructor
  · intro t walk
    exact ⟨fun a ha => t.loopDepth_of_mem_classesTrace walk p.classes rfl ha,
      t.classesTrace_cover walk p.classes .start⟩
  · intro a ha hdecl
    rw [Event.breaches, violations_of_analyze ha hdecl, ← a.table.traverse_violations]
    exact a.table.breaches_traverse p

/-- A loop that is left in a branch, a block after it that continues none, and one statement more
that leaves none. -/
def fanClass : ClassDecl :=
  ⟨⟨"Fan", ⟨6, 9⟩⟩, none, [.method ⟨true, none, mainName, [], ⟨[
    .loop ⟨"i", ⟨37, 38⟩⟩ (.int 1 ⟨42, 43⟩) (.int 3 ⟨47, 48⟩) .up
      (.block [.ifThen (.bool true ⟨57, 61⟩) (.breakLoop ⟨67, 73⟩) ⟨54, 73⟩] ⟨52, 75⟩) ⟨33, 75⟩,
    .block [.continueLoop ⟨78, 87⟩] ⟨76, 89⟩,
    .breakLoop ⟨90, 96⟩], ⟨31, 98⟩⟩⟩ ⟨12, 98⟩], ⟨0, 100⟩⟩

/-- The table of that class, and what comes up when it is checked. -/
def fanAnalysis : Analysis where
  table := ⟨[ClassTable.ioEntry, ⟨"Fan", none, [
    (mainName, ⟨some (.method ⟨none, [], true⟩), none, false⟩)]⟩], true⟩
  events := [.enterClass "Fan",
    .violation (.broken .mustInLoop "continue" ⟨78, 87⟩),
    .violation (.broken .mustInLoop "break" ⟨90, 96⟩)]

/-- One loop is counted at the statements in its body and none at those after it, of which two are
reported. -/
theorem fan_jumps_reported : analyze ⟨[fanClass], ⟨0, 100⟩⟩ = .ok fanAnalysis ∧
    (∀ v ∈ Event.violations fanAnalysis.events, v.priority ≠ .declaration) ∧
    (fanAnalysis.table.arrivals .untilSettled ⟨[fanClass], ⟨0, 100⟩⟩).map (·.place.loops) =
      [0, 1, 1, 1, 0, 0, 0] ∧
    ((nestings ⟨[fanClass], ⟨0, 100⟩⟩).filter Nesting.isStray).map (·.stmt.breaks .mustInLoop) =
      [.broken .mustInLoop "continue" ⟨78, 87⟩, .broken .mustInLoop "break" ⟨90, 96⟩] := by
  have hanalyze : analyze ⟨[fanClass], ⟨0, 100⟩⟩ = .ok fanAnalysis := by decide +kernel
  have hdecl : ∀ v ∈ Event.violations fanAnalysis.events, v.priority ≠ .declaration := by
    decide +kernel
  obtain ⟨harrivals, hreported⟩ := analyze_reports_stray_jumps ⟨[fanClass], ⟨0, 100⟩⟩
  have hdepths : (fanAnalysis.table.arrivals .untilSettled ⟨[fanClass], ⟨0, 100⟩⟩).map
      (·.scope.inner.loopDepth) = [0, 1, 1, 1, 0, 0, 0] := by decide +kernel
  have hcounted := List.map_congr_left (harrivals fanAnalysis.table .untilSettled).1
  exact ⟨hanalyze, hdecl, hcounted.symm.trans hdepths,
    (hreported fanAnalysis hanalyze hdecl).symm⟩

end Program

end ClassCheck
