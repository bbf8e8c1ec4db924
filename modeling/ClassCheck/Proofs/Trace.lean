import ClassCheck.Proofs.Frames
import ClassCheck.Proofs.Nodes

/-!
# The steps of a check

The check of a program is a list of steps. It comes to classes, to members and to statements, of
which it looks at all that is no statement, and it puts frames around statements and takes them
away again. How many steps there are depends on how far the traversal goes. Taken one after
another they lead from the progress before the check to the progress after it. So what every step
keeps is kept by the whole check, and what else there is to list about a check, say the statements
that it comes to or the changes that it makes to local names, is read off its steps.
-/

namespace ClassCheck

/-! ## Statements and those around them -/

/-- A statement of a member and the statements it stands in, from the inside out. -/
structure Nesting where
  /-- The statement. -/
  stmt : Stmt
  /-- The statements around it. -/
  around : List Stmt

mutual

/-- A statement and all statements in it, in the order in which they start. -/
def Stmt.nestings (around : List Stmt) (s : Stmt) : List Nesting :=
  ⟨s, around⟩ :: match s with
    | .ifThen _ thenBranch _ => thenBranch.nestings (s :: around)
    | .ifElse _ thenBranch elseBranch _ =>
      thenBranch.nestings (s :: around) ++ elseBranch.nestings (s :: around)
    | .loop _ _ _ _ body _ => body.nestings (s :: around)
    | .block stmts _ => Stmt.allNestings (s :: around) stmts
    | _ => []

/-- Statements in order with all statements in them. -/
def Stmt.allNestings (around : List Stmt) (ss : List Stmt) : List Nesting :=
  match ss with
  | [] => []
  | s :: ss => s.nestings around ++ Stmt.allNestings around ss

end

/-- The statements of a member's body. -/
def Member.stmts : Member → List Stmt
  | .attribute _ _ => []
  | .method decl _ => decl.body.stmts
  | .ctor decl _ => decl.body.stmts
  | .dtor decl _ => decl.body.stmts

/-- All statements of a program in textual order, each with the statements of its member that it
stands in. -/
def Program.nestings (p : Program) : List Nesting :=
  p.classes.flatMap fun c => c.members.flatMap fun m => Stmt.allNestings [] m.stmts

/-! ## Parts of a check -/

namespace Context

/-- Check what comes before the parameters and the body of a member: the result of a method, and
the name of a constructor or destructor. Attributes have nothing after it. -/
def memberHead (ctx : Context) (m : Member) (p : Progress) : Progress :=
  let p := { p with assigned := [] }
  match m with
  | .attribute decl _ =>
    let ctx := ctx.inMember m
    ctx.attributeInits decl decl.declarators (p.absorb (ctx.demandType decl.type))
  | .method decl _ =>
    match decl.result with
    | some type => p.absorb (ctx.demandType type)
    | none => p
  | .ctor decl _ => p.demand (decl.name = ctx.className) (m.breaks .mismatchInStatement)
  | .dtor decl _ => p.demand (decl.name = ctx.className) (m.breaks .mismatchInStatement)

/-- What comes before the body of a member changes no names. -/
@[simp] theorem memberHead_scope (ctx : Context) (m : Member) (p : Progress) :
    (ctx.memberHead m p).scope = p.scope := by
  rcases m with ⟨decl, span⟩ | ⟨decl, span⟩ | ⟨decl, span⟩ | ⟨decl, span⟩
  · exact attributeInits_scope _ _ _ _
  · rw [memberHead]
    cases decl.result <;> rfl
  · exact Progress.demand_scope _ _ _
  · exact Progress.demand_scope _ _ _

/-- Behind it no final attribute counts as having a value. -/
@[simp] theorem memberHead_assigned (ctx : Context) (m : Member) (p : Progress) :
    (ctx.memberHead m p).assigned = [] := by
  rcases m with ⟨decl, span⟩ | ⟨decl, span⟩ | ⟨decl, span⟩ | ⟨decl, span⟩
  · exact attributeInits_assigned _ _ _ _
  · rw [memberHead]
    cases decl.result <;> rfl
  · exact Progress.demand_assigned _ _ _
  · exact Progress.demand_assigned _ _ _

/-- The progress at the first statement of a member: its parameters stand in the frame of the
body. -/
def memberEntry (ctx : Context) (m : Member) (p : Progress) : Progress :=
  (ctx.inMember m).declareParams m.params ((ctx.memberHead m p).inScope .push)

/-- A member is checked from its first statement to its last, and then its frame is gone. -/
theorem member_eq_statements (ctx : Context) (m : Member) (p : Progress) :
    ctx.member m p = ((ctx.inMember m).statements m.stmts (ctx.memberEntry m p)).inScope .pop := by
  rcases m with ⟨decl, span⟩ | ⟨decl, span⟩ | ⟨decl, span⟩ | ⟨decl, span⟩
  · rw [Member.stmts, statements_nil]
    rfl
  all_goals rfl

/-- Check what a statement has besides statements. The frame of a loop is there from then on. -/
def own (ctx : Context) (s : Stmt) (p : Progress) : Progress :=
  match s with
  | .declare isFinal type ds _ =>
    ctx.declareLocals isFinal (.ofWritten type) s ds (p.absorb (ctx.demandType type))
  | .assign place value _ => ctx.assignment place value s p
  | .ifThen cond _ _ | .ifElse cond _ _ _ => ctx.condition cond s p
  | .loop id first last _ _ _ => ctx.loopHead id first last s p
  | .breakLoop _ | .continueLoop _ => p.demand p.scope.inLoop (s.breaks .mustInLoop)
  | .returnValue value _ => ctx.returned value s p
  | .call invocation _ => p.absorb (ctx.exprType p.scope invocation)
  | .block _ _ => p

/-- What a statement has besides statements takes no event back. -/
theorem own_grows (ctx : Context) (s : Stmt) (p : Progress) :
    p.events <+: (ctx.own s p).events := by
  cases s with
  | declare isFinal type ds span =>
    exact (p.absorb_grows _).trans (ctx.declareLocals_grows _ _ _ _ _)
  | assign place value span => exact ctx.assignment_grows _ _ _ _
  | ifThen cond thenBranch span => exact ctx.condition_grows _ _ p
  | ifElse cond thenBranch elseBranch span => exact ctx.condition_grows _ _ p
  | loop id first last direction body span => exact ctx.loopHead_grows _ _ _ _ p
  | breakLoop span => exact p.demand_grows _ _
  | continueLoop span => exact p.demand_grows _ _
  | returnValue value span => exact ctx.returned_grows _ _ _
  | call invocation span => exact p.absorb_grows _
  | block stmts span => exact List.prefix_refl _

private theorem memberHead_grows (ctx : Context) (m : Member) (p : Progress) :
    p.events <+: (ctx.memberHead m p).events := by
  rcases m with ⟨decl, span⟩ | ⟨⟨isStatic, _ | type, name, params, b⟩, span⟩ | ⟨decl, span⟩ |
    ⟨decl, span⟩
  · exact (Progress.absorb_grows { p with assigned := [] } _).trans (attributeInits_grows _ _ _ _)
  · exact List.prefix_refl _
  · exact p.absorb_grows _
  · exact Progress.demand_grows { p with assigned := [] } _ _
  · exact Progress.demand_grows { p with assigned := [] } _ _

end Context

/-! ## Steps -/

/-- One step of the check of a program. -/
inductive Step where
  /-- The check comes to a class. -/
  | enterClass (name : String)
  /-- The check comes to a member, and checks what comes before the parameters and the body. -/
  | head (ctx : Context) (m : Member)
  /-- The parameters of a member are declared. -/
  | params (ctx : Context) (ps : List Param)
  /-- The check comes to a statement. Unless it stops there, it checks what the statement has
  besides statements. -/
  | stmt (ctx : Context) (place : Nesting)
  /-- A frame is put inside. -/
  | push
  /-- The innermost frame is taken away. -/
  | pop
  /-- One loop more is counted. -/
  | enterLoop
  /-- One loop less is counted. -/
  | exitLoop

namespace Step

/-- Take a step. -/
def run (p : Progress) : Step → Progress
  | .enterClass name => p.note (.enterClass name)
  | .head ctx m => ctx.memberHead m p
  | .params ctx ps => ctx.declareParams ps p
  | .stmt ctx place => if ctx.halts p then p else ctx.own place.stmt p
  | .push => p.inScope .push
  | .pop => p.inScope .pop
  | .enterLoop => p.inScope .enterLoop
  | .exitLoop => p.inScope .exitLoop

/-- Take steps in order. -/
def runAll (p : Progress) (steps : List Step) : Progress := steps.foldl run p

/-- What there is to list at each step, given the progress at which it is taken, in order. -/
def collect {α : Type} (f : Progress → Step → List α) : Progress → List Step → List α
  | _, [] => []
  | p, step :: steps => f p step ++ collect f (step.run p) steps

/-- Steps with a frame of their own around them. -/
def framed (steps : List Step) : List Step := .push :: steps ++ [.pop]

@[simp] private theorem runAll_nil (p : Progress) : runAll p [] = p := rfl

/-- Steps are taken one after another. -/
@[simp] theorem runAll_cons (p : Progress) (step : Step) (steps : List Step) :
    runAll p (step :: steps) = runAll (step.run p) steps := rfl

@[simp] private theorem runAll_append (p : Progress) (steps steps' : List Step) :
    runAll p (steps ++ steps') = runAll (runAll p steps) steps' := List.foldl_append

/-- Steps with a frame around them are taken in that frame. -/
@[simp] theorem runAll_framed (p : Progress) (steps : List Step) :
    runAll p (framed steps) = (runAll (p.inScope .push) steps).inScope .pop :=
  runAll_append _ _ _

section

variable {α : Type} (f : Progress → Step → List α)

@[simp] private theorem collect_nil (p : Progress) : collect f p [] = [] := rfl

/-- What is collected from the first step comes before the rest. -/
@[simp] theorem collect_cons (p : Progress) (step : Step) (steps : List Step) :
    collect f p (step :: steps) = f p step ++ collect f (step.run p) steps := rfl

/-- What is collected from steps in two parts is collected part by part. -/
@[simp] theorem collect_append (p : Progress) (steps steps' : List Step) :
    collect f p (steps ++ steps') = collect f p steps ++ collect f (runAll p steps) steps' := by
  induction steps generalizing p with
  | nil => rfl
  | cons step steps ih => rw [List.cons_append, collect_cons, ih, collect_cons, List.append_assoc,
      runAll_cons]

end

/-- What is true of all that there is to list at a step, and kept by it, is true of all that there
is to list. -/
theorem forall_collect {α : Type} {f : Progress → Step → List α} {P : Progress → Prop}
    {Q : α → Prop} {steps : List Step} {p : Progress}
    (hstep : ∀ step ∈ steps, ∀ q, P q → P (step.run q) ∧ ∀ a ∈ f q step, Q a) (hp : P p) :
    ∀ a ∈ collect f p steps, Q a := by
  induction steps generalizing p with
  | nil => exact List.forall_mem_nil _
  | cons step steps ih =>
    obtain ⟨hfirst, hrest⟩ := List.forall_mem_cons.mp hstep
    obtain ⟨hnext, hhere⟩ := hfirst p hp
    exact List.forall_mem_append.mpr ⟨hhere, ih hrest hnext⟩

private theorem run_stmt_of_halts {ctx : Context} {p : Progress} (h : ctx.halts p = true)
    (place : Nesting) : run p (.stmt ctx place) = p := if_pos h

/-- A step that is taken checks what the statement has besides statements. -/
theorem run_stmt {ctx : Context} {p : Progress} (h : ctx.halts p = false) (place : Nesting) :
    run p (.stmt ctx place) = ctx.own place.stmt p := if_neg (by simp [h])

/-- A step only adds events. -/
theorem run_grows (step : Step) (p : Progress) : p.events <+: (step.run p).events := by
  cases step with
  | enterClass name => exact p.absorb_grows _
  | head ctx m => exact ctx.memberHead_grows m p
  | params ctx ps => exact ctx.declareParams_grows ps p
  | stmt ctx place =>
    rw [run]
    split
    · exact List.prefix_refl _
    · exact ctx.own_grows place.stmt p
  | _ => exact List.prefix_refl _

/-- Steps only add events. -/
theorem runAll_grows (steps : List Step) (p : Progress) :
    p.events <+: (runAll p steps).events := by
  induction steps generalizing p with
  | nil => exact List.prefix_refl _
  | cons step steps ih => exact (step.run_grows p).trans (ih _)

end Step

/-! ## The steps of statements, members and classes -/

namespace Context

mutual

/-- The steps of the check of a statement. -/
def trace (ctx : Context) (around : List Stmt) (s : Stmt) (p : Progress) : List Step :=
  .stmt ctx ⟨s, around⟩ :: if ctx.halts p then [] else match s with
    | .ifThen cond thenBranch _ =>
      Step.framed (ctx.trace (s :: around) thenBranch ((ctx.condition cond s p).inScope .push))
    | .ifElse cond thenBranch elseBranch _ =>
      let q := ctx.condition cond s p
      Step.framed (ctx.trace (s :: around) thenBranch (q.inScope .push)) ++
        Step.framed
          (ctx.trace (s :: around) elseBranch ((ctx.nested thenBranch q).inScope .push))
    | .loop id first last _ body _ =>
      let q := (ctx.loopHead id first last s p).inScope .enterLoop
      .enterLoop :: Step.framed (ctx.trace (s :: around) body (q.inScope .push)) ++
        [.exitLoop, .pop]
    | .block stmts _ => Step.framed (ctx.traceAll (s :: around) stmts (p.inScope .push))
    | _ => []

/-- The steps of the check of statements in order. -/
def traceAll (ctx : Context) (around : List Stmt) (ss : List Stmt) (p : Progress) : List Step :=
  match ss with
  | [] => []
  | s :: ss => ctx.trace around s p ++ ctx.traceAll around ss (ctx.statement s p)

end

/-- The steps of the check of a member. Attributes have no frame. -/
def memberTrace (ctx : Context) (m : Member) (p : Progress) : List Step :=
  .head ctx m :: match m with
    | .attribute _ _ => []
    | m => Step.framed (.params (ctx.inMember m) m.params ::
        (ctx.inMember m).traceAll [] m.stmts (ctx.memberEntry m p))

/-- The steps of the check of members in order. -/
def membersTrace (ctx : Context) : List Member → Progress → List Step
  | [], _ => []
  | m :: ms, p =>
    if ctx.halts p then [] else ctx.memberTrace m p ++ ctx.membersTrace ms (ctx.member m p)

end Context

namespace ClassTable

/-- The steps of the check of classes in order. -/
def classesTrace (t : ClassTable) (walk : Walk) : List ClassDecl → Progress → List Step
  | [], _ => []
  | c :: cs, p =>
    if walk = .untilSettled && p.settled then []
    else .enterClass c.name.name :: (Context.ofClass walk t c.name.name).membersTrace c.members
        (p.note (.enterClass c.name.name)) ++
      t.classesTrace walk cs (t.checkClass walk c p)

/-- The steps of the check of all members of a program. -/
def trace (t : ClassTable) (walk : Walk) (p : Program) : List Step :=
  t.classesTrace walk p.classes .start

end ClassTable

/-! ## The steps lead through the check -/

namespace Context

mutual

/-- The steps of a statement lead to the progress after it. -/
theorem runAll_trace (ctx : Context) (around : List Stmt) (s : Stmt) (p : Progress) :
    Step.runAll p (ctx.trace around s p) = ctx.statement s p := by
  rw [trace.eq_def, Step.runAll_cons]
  cases h : ctx.halts p with
  | true => rw [Step.run_stmt_of_halts h, if_pos rfl, statement_of_halts h, Step.runAll_nil]
  | false =>
    rw [Step.run_stmt h, if_neg Bool.false_ne_true]
    cases s with
    | declare isFinal type ds span => exact (statement_declare h isFinal type ds span).symm
    | assign place value span => exact (statement_assign h place value span).symm
    | ifThen cond thenBranch span =>
      rw [statement_ifThen h, nested, ← runAll_trace ctx _ thenBranch]
      exact Step.runAll_framed _ _
    | ifElse cond thenBranch elseBranch span =>
      rw [statement_ifElse h, nested, ← runAll_trace ctx _ elseBranch, Step.runAll_append,
        Step.runAll_framed, Step.runAll_framed, own, runAll_trace ctx _ thenBranch]
      rfl
    | loop id first last direction body span =>
      -- The frame of the loop came with its head, so that only the body is framed here.
      rw [statement_loop h, nested, ← runAll_trace ctx (.loop id first last direction body span ::
        around) body, Step.runAll_append, Step.runAll_cons (p := ctx.own _ p), Step.runAll_framed]
      rfl
    | breakLoop span => exact (statement_breakLoop h span).symm
    | continueLoop span => exact (statement_continueLoop h span).symm
    | returnValue value span => exact (statement_returnValue h value span).symm
    | call invocation span => exact (statement_call h invocation span).symm
    | block stmts span =>
      rw [statement_block h, ← runAll_traceAll ctx _ stmts]
      exact Step.runAll_framed _ _

/-- The steps of statements in order lead through their check. -/
theorem runAll_traceAll (ctx : Context) (around : List Stmt) (ss : List Stmt) (p : Progress) :
    Step.runAll p (ctx.traceAll around ss p) = ctx.statements ss p := by
  cases ss with
  | nil =>
    rw [traceAll, statements_nil]
    rfl
  | cons s ss =>
    rw [traceAll, Step.runAll_append, runAll_trace ctx around s, runAll_traceAll ctx around ss,
      statements_cons]

end

/-- The steps of a member lead to the progress after it. -/
theorem runAll_memberTrace (ctx : Context) (m : Member) (p : Progress) :
    Step.runAll p (ctx.memberTrace m p) = ctx.member m p := by
  have hbody : Step.runAll (ctx.memberHead m p) (Step.framed (.params (ctx.inMember m) m.params ::
      (ctx.inMember m).traceAll [] m.stmts (ctx.memberEntry m p))) = ctx.member m p := by
    rw [member_eq_statements, ← runAll_traceAll _ []]
    exact Step.runAll_framed _ _
  rcases m with ⟨decl, span⟩ | ⟨decl, span⟩ | ⟨decl, span⟩ | ⟨decl, span⟩
  -- Attributes have no frame; an empty one would be taken away again at once.
  · rfl
  all_goals exact hbody

/-- The steps of members lead through their check. -/
theorem runAll_membersTrace (ctx : Context) (ms : List Member) (p : Progress) :
    Step.runAll p (ctx.membersTrace ms p) = ctx.members ms p := by
  induction ms generalizing p with
  | nil => rfl
  | cons m ms ih =>
    rw [membersTrace, members]
    split
    · rfl
    · rw [Step.runAll_append, runAll_memberTrace, ih]

end Context

namespace ClassTable

/-- The steps of a class lead to the progress after it. -/
theorem runAll_class (t : ClassTable) (walk : Walk) (c : ClassDecl) (p : Progress) :
    Step.runAll p (.enterClass c.name.name :: (Context.ofClass walk t c.name.name).membersTrace
      c.members (p.note (.enterClass c.name.name))) = t.checkClass walk c p :=
  Context.runAll_membersTrace _ c.members (p.note (.enterClass c.name.name))

/-- The steps of classes lead through their check. -/
theorem runAll_classesTrace (t : ClassTable) (walk : Walk) (cs : List ClassDecl) (p : Progress) :
    Step.runAll p (t.classesTrace walk cs p) = t.checkClasses walk cs p := by
  induction cs generalizing p with
  | nil => rfl
  | cons c cs ih =>
    rw [classesTrace, checkClasses]
    split
    · rfl
    · rw [Step.runAll_append, runAll_class, ih]

/-- The steps of a program lead through its whole check. -/
theorem events_runAll_trace (t : ClassTable) (walk : Walk) (p : Program) :
    (Step.runAll .start (t.trace walk p)).events = t.traverse walk p :=
  congrArg Progress.events (t.runAll_classesTrace walk p.classes .start)

end ClassTable

/-! ## Where the steps come from -/

namespace Step

/-- A step of statements: it comes to one of them in the context around them, or changes
frames. -/
def InBody (ctx : Context) (ns : List Nesting) : Step → Prop
  | .stmt ctx' place => ctx' = ctx ∧ place ∈ ns
  | .push | .pop | .enterLoop | .exitLoop => True
  | .enterClass _ | .head _ _ | .params _ _ => False

/-- A step of classes, each with a context of its own: it comes to one of them, to one of their
members, to its parameters or to one of its statements, or changes frames. -/
def InClasses (t : ClassTable) (walk : Walk) (cs : List ClassDecl) : Step → Prop
  | .enterClass name => ∃ c ∈ cs, name = c.name.name
  | .head ctx m => ∃ c ∈ cs, m ∈ c.members ∧ ctx = .ofClass walk t c.name.name
  | .params ctx ps => ∃ c ∈ cs, ∃ m ∈ c.members, ps = m.params ∧
      ctx = (Context.ofClass walk t c.name.name).inMember m
  | .stmt ctx place => ∃ c ∈ cs, ∃ m ∈ c.members, place ∈ Stmt.allNestings [] m.stmts ∧
      ctx = (Context.ofClass walk t c.name.name).inMember m
  | .push | .pop | .enterLoop | .exitLoop => True

/-- A step among some statements is one among more of them. -/
theorem InBody.mono {ctx : Context} {ns ns' : List Nesting} (hns : ns ⊆ ns') {step : Step}
    (h : step.InBody ctx ns) : step.InBody ctx ns' := by
  cases step with
  | stmt ctx' place => exact ⟨h.1, hns h.2⟩
  | _ => exact h

/-- The context that a step is taken in, where it needs one. -/
def ctx? : Step → Option Context
  | .head ctx _ | .params ctx _ | .stmt ctx _ => some ctx
  | .enterClass _ | .push | .pop | .enterLoop | .exitLoop => none

/-- The context of a step of classes is that of one of these classes, but for the member. -/
theorem InClasses.of_ctx? {t : ClassTable} {walk : Walk} {cs : List ClassDecl} {step : Step}
    (h : step.InClasses t walk cs) {ctx : Context} (hctx : step.ctx? = some ctx) :
    ctx.walk = walk ∧ ctx.table = t ∧ ∃ c ∈ cs, ctx.className = c.name.name := by
  have hinner : ∀ (c : ClassDecl) (m : Member), c ∈ cs →
      ((Context.ofClass walk t c.name.name).inMember m).walk = walk ∧
      ((Context.ofClass walk t c.name.name).inMember m).table = t ∧
      ∃ d ∈ cs, ((Context.ofClass walk t c.name.name).inMember m).className = d.name.name :=
    fun c m hc => ⟨Context.inMember_walk _ m, Context.inMember_table _ m, c, hc,
      Context.inMember_className _ m⟩
  cases step with
  | head ctx m =>
    obtain rfl := Option.some.inj hctx
    obtain ⟨c, hc, -, rfl⟩ := h
    exact ⟨rfl, rfl, c, hc, rfl⟩
  | params ctx ps =>
    obtain rfl := Option.some.inj hctx
    obtain ⟨c, hc, m, -, -, rfl⟩ := h
    exact hinner c m hc
  | stmt ctx place =>
    obtain rfl := Option.some.inj hctx
    obtain ⟨c, hc, m, -, -, rfl⟩ := h
    exact hinner c m hc
  | _ => cases hctx

private theorem forall_mem_framed {P : Step → Prop} (hpush : P .push) (hpop : P .pop)
    {steps : List Step} (h : ∀ step ∈ steps, P step) : ∀ step ∈ framed steps, P step := by
  rw [framed, List.forall_mem_append, List.forall_mem_cons, List.forall_mem_singleton]
  exact ⟨⟨hpush, h⟩, hpop⟩

end Step

namespace Context

mutual

/-- Each step of a statement belongs to the statement or to one in it. -/
theorem inBody_trace (ctx : Context) (s : Stmt) (around : List Stmt) (p : Progress) :
    ∀ step ∈ ctx.trace around s p, step.InBody ctx (s.nestings around) := by
  rw [trace.eq_def, Stmt.nestings.eq_def]
  refine List.forall_mem_cons.mpr ⟨⟨rfl, List.mem_cons_self⟩, ?_⟩
  split
  · exact List.forall_mem_nil _
  -- The other steps belong to statements inside.
  intro step hstep
  refine Step.InBody.mono (List.subset_cons_self _ _) ?_
  revert step
  cases s with
  | ifThen cond thenBranch span =>
    exact Step.forall_mem_framed trivial trivial (inBody_trace ctx thenBranch _ _)
  | ifElse cond thenBranch elseBranch span =>
    refine List.forall_mem_append.mpr ⟨?_, ?_⟩
    · exact Step.forall_mem_framed trivial trivial fun step hstep =>
        (inBody_trace ctx thenBranch _ _ step hstep).mono (List.subset_append_left _ _)
    · exact Step.forall_mem_framed trivial trivial fun step hstep =>
        (inBody_trace ctx elseBranch _ _ step hstep).mono (List.subset_append_right _ _)
  | loop id first last direction body span =>
    simp only [List.forall_mem_append, List.forall_mem_cons]
    exact ⟨⟨trivial, Step.forall_mem_framed trivial trivial (inBody_trace ctx body _ _)⟩,
      trivial, trivial, List.forall_mem_nil _⟩
  | block stmts span =>
    exact Step.forall_mem_framed trivial trivial (inBody_traceAll ctx stmts _ _)
  | _ => exact List.forall_mem_nil _

/-- The steps of statements in order come from these statements. -/
theorem inBody_traceAll (ctx : Context) (ss : List Stmt) (around : List Stmt) (p : Progress) :
    ∀ step ∈ ctx.traceAll around ss p, step.InBody ctx (Stmt.allNestings around ss) := by
  cases ss with
  | nil =>
    rw [traceAll]
    exact List.forall_mem_nil _
  | cons s ss =>
    rw [traceAll, Stmt.allNestings]
    refine List.forall_mem_append.mpr ⟨fun step hstep => ?_, fun step hstep => ?_⟩
    · exact (inBody_trace ctx s around p step hstep).mono (List.subset_append_left _ _)
    · exact (inBody_traceAll ctx ss around _ step hstep).mono (List.subset_append_right _ _)

end

end Context

namespace ClassTable

/-- The steps of a member come from the classes. -/
theorem inClasses_memberTrace (t : ClassTable) (walk : Walk) {cs : List ClassDecl} {c : ClassDecl}
    (hc : c ∈ cs) {m : Member} (hm : m ∈ c.members) (p : Progress) :
    ∀ step ∈ (Context.ofClass walk t c.name.name).memberTrace m p, step.InClasses t walk cs := by
  have hbody : ∀ step ∈ Step.framed (.params ((Context.ofClass walk t c.name.name).inMember m)
      m.params :: ((Context.ofClass walk t c.name.name).inMember m).traceAll [] m.stmts
        ((Context.ofClass walk t c.name.name).memberEntry m p)), step.InClasses t walk cs := by
    refine Step.forall_mem_framed trivial trivial (List.forall_mem_cons.mpr
      ⟨⟨c, hc, m, hm, rfl, rfl⟩, fun step hstep => ?_⟩)
    have hin := Context.inBody_traceAll _ _ _ _ step hstep
    cases step with
    | stmt ctx place => exact ⟨c, hc, m, hm, hin.2, hin.1⟩
    | enterClass name => exact hin.elim
    | head ctx m => exact hin.elim
    | params ctx ps => exact hin.elim
    | _ => trivial
  refine List.forall_mem_cons.mpr ⟨⟨c, hc, hm, rfl⟩, ?_⟩
  rcases m with ⟨decl, span⟩ | ⟨decl, span⟩ | ⟨decl, span⟩ | ⟨decl, span⟩
  · exact List.forall_mem_nil _
  all_goals exact hbody

private theorem inClasses_membersTrace (t : ClassTable) (walk : Walk) {cs : List ClassDecl}
    {c : ClassDecl} (hc : c ∈ cs) {ms : List Member} (hms : ms ⊆ c.members) (p : Progress) :
    ∀ step ∈ (Context.ofClass walk t c.name.name).membersTrace ms p, step.InClasses t walk cs := by
  induction ms generalizing p with
  | nil => exact List.forall_mem_nil _
  | cons m ms ih =>
    obtain ⟨hm, hms⟩ := List.cons_subset.mp hms
    rw [Context.membersTrace]
    split
    · exact List.forall_mem_nil _
    · exact List.forall_mem_append.mpr ⟨t.inClasses_memberTrace walk hc hm p, ih hms _⟩

/-- Each step of classes belongs to one of them. -/
theorem inClasses_classesTrace (t : ClassTable) (walk : Walk) {all cs : List ClassDecl}
    (hcs : cs ⊆ all) (p : Progress) :
    ∀ step ∈ t.classesTrace walk cs p, step.InClasses t walk all := by
  induction cs generalizing p with
  | nil => exact List.forall_mem_nil _
  | cons c cs ih =>
    obtain ⟨hc, hcs⟩ := List.cons_subset.mp hcs
    rw [classesTrace]
    split
    · exact List.forall_mem_nil _
    · refine List.forall_mem_append.mpr ⟨List.forall_mem_cons.mpr ⟨⟨c, hc, rfl⟩, ?_⟩, ih hcs _⟩
      exact t.inClasses_membersTrace walk hc (List.Subset.refl _) _

end ClassTable

/-! ## The statements that a check comes to -/

/-- A statement that a check comes to, and the local names there. -/
structure Arrival where
  /-- The statement. -/
  place : Nesting
  /-- The local names. -/
  scope : Scope

/-- The statement that a step comes to. -/
def Step.arrivals (p : Progress) : Step → List Arrival
  | .stmt _ place => [⟨place, p.scope⟩]
  | _ => []

@[simp] private theorem Step.collect_arrivals_framed (p : Progress) (steps : List Step) :
    collect arrivals p (framed steps) = collect arrivals (p.inScope .push) steps := by
  rw [framed, collect_append, collect_cons]
  exact List.append_nil _

namespace Context

/-- The statements that the check of a statement comes to. -/
def arrivals (ctx : Context) (around : List Stmt) (s : Stmt) (p : Progress) : List Arrival :=
  Step.collect Step.arrivals p (ctx.trace around s p)

/-- The statements that the check of statements in order comes to. -/
def allArrivals (ctx : Context) (around : List Stmt) (ss : List Stmt) (p : Progress) :
    List Arrival :=
  Step.collect Step.arrivals p (ctx.traceAll around ss p)

/-- The check comes to a statement, and then to those in it. -/
theorem arrivals_eq (ctx : Context) (around : List Stmt) (s : Stmt) (p : Progress) :
    ctx.arrivals around s p =
      ⟨⟨s, around⟩, p.scope⟩ :: if ctx.halts p then [] else match s with
        | .ifThen cond thenBranch _ =>
          ctx.arrivals (s :: around) thenBranch ((ctx.condition cond s p).inScope .push)
        | .ifElse cond thenBranch elseBranch _ =>
          let q := ctx.condition cond s p
          ctx.arrivals (s :: around) thenBranch (q.inScope .push) ++
            ctx.arrivals (s :: around) elseBranch ((ctx.nested thenBranch q).inScope .push)
        | .loop id first last _ body _ =>
          ctx.arrivals (s :: around) body
            (((ctx.loopHead id first last s p).inScope .enterLoop).inScope .push)
        | .block stmts _ => ctx.allArrivals (s :: around) stmts (p.inScope .push)
        | _ => [] := by
  rw [arrivals, trace.eq_def, Step.collect_cons, Step.arrivals, List.singleton_append]
  congr 1
  cases h : ctx.halts p with
  | true => rfl
  | false =>
    rw [if_neg Bool.false_ne_true, if_neg Bool.false_ne_true, Step.run_stmt h]
    cases s with
    | ifThen cond thenBranch span => exact Step.collect_arrivals_framed _ _
    | ifElse cond thenBranch elseBranch span =>
      rw [Step.collect_append, Step.runAll_framed, Step.collect_arrivals_framed,
        Step.collect_arrivals_framed, own, runAll_trace]
      rfl
    | loop id first last direction body span =>
      rw [Step.collect_append, Step.collect_cons (p := ctx.own _ p), Step.collect_arrivals_framed]
      exact List.append_nil _
    | block stmts span => exact Step.collect_arrivals_framed _ _
    | _ => rfl

/-- No statements are arrived at among none. -/
@[simp] theorem allArrivals_nil (ctx : Context) (around : List Stmt) (p : Progress) :
    ctx.allArrivals around [] p = [] := by
  rw [allArrivals, traceAll, Step.collect_nil]

/-- The statements arrived at in order are those in the first one and those in the rest. -/
@[simp] theorem allArrivals_cons (ctx : Context) (around : List Stmt) (s : Stmt) (ss : List Stmt)
    (p : Progress) : ctx.allArrivals around (s :: ss) p =
      ctx.arrivals around s p ++ ctx.allArrivals around ss (ctx.statement s p) := by
  rw [allArrivals, traceAll, Step.collect_append, runAll_trace]
  rfl

/-- The check of a member comes to the statements of its body. -/
theorem arrivals_memberTrace (ctx : Context) (m : Member) (p : Progress) :
    Step.collect Step.arrivals p (ctx.memberTrace m p) =
      (ctx.inMember m).allArrivals [] m.stmts (ctx.memberEntry m p) := by
  rcases m with ⟨decl, span⟩ | ⟨decl, span⟩ | ⟨decl, span⟩ | ⟨decl, span⟩
  · exact (allArrivals_nil _ _ _).symm
  all_goals exact Step.collect_arrivals_framed _ _

end Context

/-- The statements that the check of all members of a program comes to. -/
def ClassTable.arrivals (t : ClassTable) (walk : Walk) (p : Program) : List Arrival :=
  Step.collect Step.arrivals .start (t.trace walk p)

end ClassCheck
