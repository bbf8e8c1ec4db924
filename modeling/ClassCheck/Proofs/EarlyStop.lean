import ClassCheck.Proofs.Agreement
import ClassCheck.Proofs.Clean
import ClassCheck.Proofs.Gravest

/-!
# Stopping early does not change the answer

The traversal that stops at the first decisive violation is compared with the one that goes
through the whole program. They carry the same progress until the first of them stops; from then
on its events are a prefix of the other's, and a prefix that already holds a decisive violation.
So both have the same violation to report, and the check gives the answer of the reference that
collects every violation and picks the earliest of the smallest rank.
-/

namespace ClassCheck

namespace Context

/-- The same context for a traversal that leaves nothing out. -/
def exhaustive (ctx : Context) : Context := { ctx with walk := .exhaustive }

/-- How far the traversal goes does not matter to expressions and to the parts of statements. -/
theorem agrees_exhaustive (ctx : Context) : ctx.exhaustive.Agrees ctx :=
  ⟨rfl, rfl, rfl, rfl, rfl⟩

@[simp] theorem halts_exhaustive (ctx : Context) (p : Progress) :
    ctx.exhaustive.halts p = false := rfl

end Context

/-- The traversal is settled just where a tracker is that has seen the same violations. -/
theorem Progress.settled_eq_tracker (p : Progress) :
    p.settled = (Tracker.empty.recordAll (Event.violations p.events)).settled := by
  rw [settled, Event.any_isDecisive, Tracker.settled_recordAll]

/-! ## Two traversals side by side -/

/-- The first traversal has come exactly as far as the second, or it has found a decisive
violation and the second has found all it found, in the same order, before anything else. -/
def Progress.KeepsUp (p q : Progress) : Prop :=
  p = q ∨ (p.settled = true ∧ p.events <+: q.events)

namespace Progress.KeepsUp

/-- A check keeps up with itself. -/
theorem refl (p : Progress) : p.KeepsUp p := Or.inl rfl

/-- Changes of the scope on both sides leave the relation alone. -/
theorem inScope {p q : Progress} (h : p.KeepsUp q) (f : Scope → Scope) :
    (p.inScope f).KeepsUp (q.inScope f) := by
  rcases h with rfl | ⟨hs, hp⟩
  · exact refl _
  · exact Or.inr ⟨hs, hp⟩

/-- The events of a check that keeps up are the first ones of the other. -/
theorem events {p q : Progress} (h : p.KeepsUp q) : p.events <+: q.events := by
  rcases h with rfl | ⟨-, hp⟩
  · exact List.prefix_refl _
  · exact hp

end Progress.KeepsUp

namespace Context

/-- A traversal that stops early halts once it is settled. -/
theorem halts_of_settled {ctx : Context} (hw : ctx.walk = .untilSettled) {p : Progress}
    (hs : p.settled = true) : ctx.halts p = true := by
  simp [halts, hw, hs]

mutual

/-- One statement keeps both traversals in step. A traversal that has stopped adds nothing, and
the other one only adds to what it has; one that goes on does the same up to the statements inside,
where the induction takes over. -/
theorem statement_keepsUp (ctx : Context) (hw : ctx.walk = .untilSettled) (s : Stmt)
    {p q : Progress} (h : p.KeepsUp q) :
    (ctx.statement s p).KeepsUp (ctx.exhaustive.statement s q) := by
  rcases h with rfl | ⟨hs, hp⟩
  · cases hh : ctx.halts p with
    | true =>
      rw [statement_of_halts hh]
      have hsettled : p.settled = true := by simpa [halts, hw] using hh
      exact Or.inr ⟨hsettled, ctx.exhaustive.statement_grows s p⟩
    | false =>
      have he := ctx.halts_exhaustive p
      have hagrees := ctx.agrees_exhaustive
      cases s with
      | declare isFinal type ds span =>
        rw [statement_declare hh, statement_declare he]
        exact Or.inl (declareLocals_after hagrees [] _ _ _ _ _).symm
      | assign place value span =>
        rw [statement_assign hh, statement_assign he]
        exact Or.inl (assignment_after hagrees [] _ _ _ _).symm
      | ifThen cond thenBranch span =>
        have hcond := condition_after hagrees [] cond (.ifThen cond thenBranch span) p
        rw [Progress.after_nil, Progress.after_nil] at hcond
        rw [statement_ifThen hh, statement_ifThen he, hcond]
        exact (statement_keepsUp ctx hw thenBranch (.refl _)).inScope _
      | ifElse cond thenBranch elseBranch span =>
        have hcond := condition_after hagrees [] cond (.ifElse cond thenBranch elseBranch span) p
        rw [Progress.after_nil, Progress.after_nil] at hcond
        rw [statement_ifElse hh, statement_ifElse he, hcond]
        have hthen := (statement_keepsUp ctx hw thenBranch (.refl ((ctx.condition cond
          (.ifElse cond thenBranch elseBranch span) p).inScope .push))).inScope .pop
        exact (statement_keepsUp ctx hw elseBranch (hthen.inScope .push)).inScope .pop
      | loop id first last direction body span =>
        have hhead := loopHead_after hagrees [] id first last
          (.loop id first last direction body span) p
        rw [Progress.after_nil, Progress.after_nil] at hhead
        rw [statement_loop hh, statement_loop he, hhead]
        exact (((statement_keepsUp ctx hw body (.refl _)).inScope _).inScope _).inScope _
      | breakLoop span =>
        rw [statement_breakLoop hh, statement_breakLoop he]
        exact .refl _
      | continueLoop span =>
        rw [statement_continueLoop hh, statement_continueLoop he]
        exact .refl _
      | returnValue value span =>
        rw [statement_returnValue hh, statement_returnValue he]
        exact Or.inl (returned_after hagrees [] _ _ _).symm
      | call invocation span =>
        rw [statement_call hh, statement_call he, exprType_agrees hagrees]
        exact .refl _
      | block stmts span =>
        rw [statement_block hh, statement_block he]
        exact (statements_keepsUp ctx hw stmts (.refl _)).inScope _
  · -- The first traversal has stopped, and the second one goes on alone.
    rw [statement_of_halts (halts_of_settled hw hs)]
    exact Or.inr ⟨hs, hp.trans (ctx.exhaustive.statement_grows s q)⟩

/-- Statements in order keep both traversals in step. -/
theorem statements_keepsUp (ctx : Context) (hw : ctx.walk = .untilSettled) (ss : List Stmt)
    {p q : Progress} (h : p.KeepsUp q) :
    (ctx.statements ss p).KeepsUp (ctx.exhaustive.statements ss q) := by
  cases ss with
  | nil =>
    rw [statements_nil, statements_nil]
    exact h
  | cons s ss =>
    rw [statements_cons, statements_cons]
    exact statements_keepsUp ctx hw ss (statement_keepsUp ctx hw s h)

end

private theorem body_keepsUp (ctx : Context) (hw : ctx.walk = .untilSettled) (params : List Param)
    (b : Block) (p : Progress) :
    (ctx.body params b p).KeepsUp (ctx.exhaustive.body params b p) := by
  have hparams := declareParams_after ctx.agrees_exhaustive [] params (p.inScope .push)
  rw [Progress.after_nil, Progress.after_nil] at hparams
  rw [body, body, hparams]
  exact (statements_keepsUp ctx hw b.stmts (.refl _)).inScope _

/-- A member checked by both traversals from the same progress keeps them in step. -/
theorem member_keepsUp (ctx : Context) (hw : ctx.walk = .untilSettled) (m : Member)
    (p : Progress) : (ctx.member m p).KeepsUp (ctx.exhaustive.member m p) := by
  have hin : (ctx.inMember m).walk = .untilSettled := (ctx.inMember_walk m).trans hw
  match m with
  | .attribute decl span =>
    exact Or.inl (attributeInits_after (agrees_exhaustive (ctx.enter decl.isStatic false none))
      [] decl _ _).symm
  | .method decl span => exact body_keepsUp _ hin decl.params decl.body _
  | .ctor decl span => exact body_keepsUp _ hin decl.params decl.body _
  | .dtor decl span => exact body_keepsUp _ hin [] decl.body _

/-- The members of a class keep both traversals in step. -/
theorem members_keepsUp (ctx : Context) (hw : ctx.walk = .untilSettled) (ms : List Member)
    {p q : Progress} (h : p.KeepsUp q) :
    (ctx.members ms p).KeepsUp (ctx.exhaustive.members ms q) := by
  induction ms generalizing p q with
  | nil => exact h
  | cons m ms ih =>
    cases hh : ctx.halts p with
    | true =>
      have hsettled : p.settled = true := by simpa [halts, hw] using hh
      rw [members, if_pos hh]
      exact Or.inr ⟨hsettled, h.events.trans (ctx.exhaustive.members_grows (m :: ms) q)⟩
    | false =>
      rcases h with rfl | ⟨hs, _⟩
      · rw [members, members, if_neg (by simp [hh]), if_neg (by simp)]
        exact ih (member_keepsUp ctx hw m p)
      · rw [halts_of_settled hw hs] at hh
        cases hh

end Context

namespace ClassTable

/-- The classes of a program keep both traversals in step. -/
theorem checkClasses_keepsUp (t : ClassTable) (cs : List ClassDecl) {p q : Progress}
    (h : p.KeepsUp q) :
    (t.checkClasses .untilSettled cs p).KeepsUp (t.checkClasses .exhaustive cs q) := by
  induction cs generalizing p q with
  | nil => exact h
  | cons c cs ih =>
    rcases h with rfl | ⟨hs, hp⟩
    · cases hs : p.settled with
      | true =>
        rw [checkClasses, if_pos (by simp [hs])]
        exact Or.inr ⟨hs, t.checkClasses_grows .exhaustive (c :: cs) p⟩
      | false =>
        rw [checkClasses, checkClasses, if_neg (by simp [hs]), if_neg (by simp)]
        exact ih (Context.members_keepsUp (.ofClass .untilSettled t c.name.name) rfl
          c.members (.refl _))
    · rw [checkClasses, if_pos (by simp [hs])]
      exact Or.inr ⟨hs, hp.trans (t.checkClasses_grows .exhaustive (c :: cs) q)⟩

/-- The events of the traversal that stops early are all events there are, or a prefix of them
that holds a decisive violation. -/
theorem traverse_untilSettled (t : ClassTable) (p : Program) :
    t.traverse .untilSettled p = t.traverse .exhaustive p ∨
      ((t.traverse .untilSettled p).any Event.isDecisive = true ∧
        t.traverse .untilSettled p <+: t.traverse .exhaustive p) := by
  rcases t.checkClasses_keepsUp p.classes (.refl .start) with he | hs
  · exact Or.inl (congrArg Progress.events he)
  · exact Or.inr hs

end ClassTable

/-- Both traversals have the same violation to report. -/
theorem ClassTable.gravest?_untilSettled (t : ClassTable) (p : Program) :
    Violation.gravest? (Event.violations (t.traverse .untilSettled p)) =
      Violation.gravest? (Event.violations (t.traverse .exhaustive p)) := by
  rcases t.traverse_untilSettled p with he | ⟨hd, rest, he⟩
  · rw [he]
  · rw [← he, Event.violations_append]
    exact (Violation.gravest?_append_of_decisive _ (Event.exists_decisive hd)).symm

/-! ## The reference -/

/-- The check that leaves nothing out: collect the violations of the whole program in order,
report the earliest of the smallest rank, and ask for an entry point only if there are none. -/
def Program.checkExhaustively (p : Program) : Except Violation Unit :=
  match ClassTable.build p with
  | .error v => .error v
  | .ok t => t.answer (Event.violations (t.traverse .exhaustive p))

namespace Program

/-- A program whose table cannot be built fails with the violation found there. -/
theorem check_of_build_error {p : Program} {v : Violation}
    (h : ClassTable.build p = .error v) : p.check = .error v := by
  rw [check, analyze, h]
  rfl

/-- Once the class table is built, the answer is that for the violations of a traversal that
leaves nothing out. -/
theorem check_of_build_ok {p : Program} {t : ClassTable} (h : ClassTable.build p = .ok t) :
    p.check = t.answer (Event.violations (t.traverse .exhaustive p)) := by
  have hjudge : p.check = t.judge (t.traverse .untilSettled p) := by
    rw [check, analyze, h]
    rfl
  rw [hjudge, ClassTable.judge_eq_answer, ClassTable.answer, ClassTable.answer,
    ClassTable.gravest?_untilSettled]

/-- The check gives the answer of the reference. In particular, when the class table can be
built, the violation it reports is the first of the gravest among all violations of the
program. -/
theorem check_eq_checkExhaustively (p : Program) :
    p.check = p.checkExhaustively ∧
      ∀ t v, ClassTable.build p = .ok t → v ≠ .noEntryPoint →
        (p.check = .error v ↔
          Violation.FirstGravest (Event.violations (t.traverse .exhaustive p)) v) := by
  constructor
  · unfold checkExhaustively
    cases hb : ClassTable.build p with
    | error v => exact check_of_build_error hb
    | ok t => exact check_of_build_ok hb
  · intro t v hb hv
    rw [check_of_build_ok hb]
    exact t.answer_eq_error_iff _ hv

end Program

end ClassCheck
