import ClassCheck.Proofs.Occurrences

/-!
# Violations of one rule

Two rules are broken by what a statement does and not by names or types in it: a loop is left
where there is none, or a constant is written to. Nothing inside an expression breaks them, and
most steps of a check leave the violations of such a rule as they were.
-/

namespace ClassCheck

/-- The rule that a violation breaks. -/
def Violation.rule? : Violation → Option Rule
  | .broken rule _ _ => some rule
  | .noEntryPoint => none

@[simp] private theorem Violation.rule?_broken (rule : Rule) (subject : String) (span : Span) :
    (broken rule subject span).rule? = some rule := rfl

@[simp] private theorem Stmt.rule?_breaks (s : Stmt) (rule : Rule) :
    (s.breaks rule).rule? = some rule := rfl

/-- The rules that a statement breaks by what it does. -/
def Rule.ofActions : List Rule := [.mustInLoop, .cannotAssignToConstant]

/-- What goes wrong with the names and types in a statement breaks another rule. -/
theorem Rule.ne_of_mem_ofActions {rule other : Rule} (hrule : rule ∈ ofActions)
    (hother : other ∉ ofActions) : some other ≠ some rule := by
  rintro ⟨⟩
  exact hother hrule

private theorem Stmt.rule?_mismatch_ne {rule : Rule} (hrule : rule ∈ Rule.ofActions) (s : Stmt) :
    (s.breaks .mismatchInStatement).rule? ≠ some rule :=
  Rule.ne_of_mem_ofActions hrule (by decide)

namespace Event

/-- The violations of a rule among events, in order. -/
def breaches (rule : Rule) (events : List Event) : List Violation :=
  (violations events).filter (·.rule? = some rule)

/-- The breaches of a rule are listed in order. -/
@[simp] theorem breaches_append (rule : Rule) (as bs : List Event) :
    breaches rule (as ++ bs) = breaches rule as ++ breaches rule bs := by
  simp [breaches]

end Event

/-! ## Expressions -/

namespace Checked

/-- Nothing in a check breaks a rule. -/
abbrev Spares {α : Type} (rule : Rule) (c : Checked α) : Prop := c.Reports (·.rule? ≠ some rule)

/-- A check that spares a rule has no breaches of it. -/
theorem Spares.breaches {α : Type} {rule : Rule} {c : Checked α} (h : c.Spares rule) :
    Event.breaches rule c.events = [] := by
  rw [Event.breaches, List.filter_eq_nil_iff]
  intro v hv
  simpa using h v (Event.mem_violations_iff.mp hv)

end Checked

/-- Inside an expression there are only expressions, and none of them does anything. -/
theorem Node.Faults.rule?_ne {e : Expr} {v : Violation} (h : (Node.expr e).Faults v) {rule : Rule}
    (hrule : rule ∈ Rule.ofActions) : v.rule? ≠ some rule := by
  obtain ⟨m, hin, hblamed⟩ := h
  have hexpr : ∃ e', m = .expr e' := by
    generalize hn : Node.expr e = n at hin
    induction hin generalizing e with
    | self => exact ⟨e, hn.symm⟩
    | deeper hk _ ih =>
      subst hn
      simp only [children, asides, List.append_nil, List.mem_map] at hk
      obtain ⟨e', -, he'⟩ := hk
      exact ih he'
  obtain ⟨e', rfl⟩ := hexpr
  cases hblamed with
  | @expr _ other hother =>
    refine Rule.ne_of_mem_ofActions hrule ?_
    intro hboth
    revert other
    decide
  | _ => exact Rule.ne_of_mem_ofActions hrule (by decide)

namespace Context

section

variable {rule : Rule} (hrule : rule ∈ Rule.ofActions) (ctx : Context) (s : Scope) (e : Expr)

include hrule

/-- Expressions spare both rules. -/
theorem spares_exprType : (ctx.exprType s e).Spares rule :=
  (ctx.faults_exprType s e).mono fun _ hv => hv.rule?_ne hrule

/-- So do values. -/
theorem spares_valueType : (ctx.valueType s e).Spares rule :=
  (ctx.faults_valueType s e).mono fun _ hv => hv.rule?_ne hrule

/-- So does an attribute behind a dot. -/
theorem spares_attribute? (object : Expr) (name : String) (span : Span) (τ : ExprTy) :
    (ctx.attribute? (.field object name span) name τ).Spares rule := by
  refine ctx.reports_attribute? ?_ (Rule.ne_of_mem_ofActions hrule (by decide)) τ
  intro other hother
  exact (Node.faults_of_ofExprs hother).rule?_ne hrule

/-- So does a written type. -/
theorem spares_demandType (type : WrittenType) : (ctx.demandType type).Spares rule := by
  have hclass := Rule.ne_of_mem_ofActions hrule (show Rule.undeclaredClass ∉ _ by decide)
  unfold demandType
  split
  · split <;> simp [hclass]
  · simp

/-- So does an initial value, as far as its blame does. -/
theorem spares_initializer (isFinal : Bool) (declared : Ty) {blame : Rule → Violation}
    (hblame : ∀ other, (blame other).rule? = some other) :
    (ctx.initializer s isFinal declared e blame).Spares rule := by
  refine ctx.reports_initializer s isFinal declared (fun _ hv => hv.rule?_ne hrule) ?_
  intro other hother
  rw [hblame]
  refine Rule.ne_of_mem_ofActions hrule ?_
  revert other
  decide

end

end Context

/-! ## Steps of a check -/

namespace Progress

variable {rule : Rule} (p : Progress)

/-- A check that spares the rule adds no breach. -/
theorem breaches_absorb {α : Type} {c : Checked α} (hc : c.Spares rule) :
    Event.breaches rule (p.absorb c).events = Event.breaches rule p.events := by
  rw [absorb_events, Event.breaches_append, hc.breaches, List.append_nil]

/-- A report of another rule adds none. -/
theorem breaches_report {v : Violation} (hv : v.rule? ≠ some rule) :
    Event.breaches rule (p.report v).events = Event.breaches rule p.events :=
  p.breaches_absorb (Checked.reports_report_iff.mpr hv)

/-- Nor does a demand for another rule. -/
theorem breaches_demand (holds : Bool) {v : Violation} (hv : v.rule? ≠ some rule) :
    Event.breaches rule (p.demand holds v).events = Event.breaches rule p.events := by
  cases holds with
  | true => rfl
  | false => exact p.breaches_report hv

/-- Nor does a declaration of a name. -/
theorem breaches_define (b : Binding) (span : Option Span) :
    Event.breaches rule (p.define b span).events = Event.breaches rule p.events := by
  unfold define
  cases p.scope.define? b with
  | some scope => rfl
  | none => exact p.breaches_absorb (by simp [Checked.Spares])

end Progress

namespace Context

variable {rule : Rule} (hrule : rule ∈ Rule.ofActions) (ctx : Context) (p : Progress)

include hrule

/-- Nor does a condition. -/
theorem breaches_condition (e : Expr) (stmt : Stmt) :
    Event.breaches rule (ctx.condition e stmt p).events = Event.breaches rule p.events := by
  refine (Progress.breaches_demand _ _ (stmt.rule?_mismatch_ne hrule)).trans ?_
  exact p.breaches_absorb (spares_valueType hrule ctx p.scope e)

/-- Nor do the bounds of a loop. -/
theorem breaches_bounds (first last : Expr) (stmt : Stmt) :
    Event.breaches rule (ctx.bounds first last stmt p).events = Event.breaches rule p.events := by
  refine (Progress.breaches_demand _ _ (stmt.rule?_mismatch_ne hrule)).trans ?_
  refine (Progress.breaches_absorb _ (spares_valueType hrule ctx _ last)).trans ?_
  exact p.breaches_absorb (spares_valueType hrule ctx p.scope first)

/-- Nor does a return. -/
theorem breaches_returned (value : Option Expr) (stmt : Stmt) :
    Event.breaches rule (ctx.returned value stmt p).events = Event.breaches rule p.events := by
  cases value with
  | none => exact p.breaches_demand _ (stmt.rule?_mismatch_ne hrule)
  | some e =>
    refine (Progress.breaches_demand _ _ (stmt.rule?_mismatch_ne hrule)).trans ?_
    exact p.breaches_absorb (spares_valueType hrule ctx p.scope e)

/-- Nor do declarations of local names. -/
theorem breaches_declareLocals (isFinal : Bool) (T : Ty) (stmt : Stmt) (ds : List Declarator) :
    Event.breaches rule (ctx.declareLocals isFinal T stmt ds p).events =
      Event.breaches rule p.events := by
  induction ds generalizing p with
  | nil => rfl
  | cons d ds ih =>
    rw [declareLocals]
    split
    · refine p.breaches_report (Rule.ne_of_mem_ofActions hrule ?_)
      cases isFinal <;> decide
    · refine (ih _).trans ((Progress.breaches_define _ _ _).trans ?_)
      unfold localInit
      split
      · exact p.breaches_absorb (spares_initializer hrule ctx _ _ _ _ fun _ => rfl)
      · rfl

private theorem breaches_attributeInits (decl : AttributeDecl) (ds : List Declarator) :
    Event.breaches rule (ctx.attributeInits decl ds p).events = Event.breaches rule p.events := by
  induction ds generalizing p with
  | nil => rfl
  | cons d ds ih =>
    rw [attributeInits]
    refine (ih _).trans ?_
    split
    · exact p.breaches_absorb (spares_initializer hrule ctx _ _ _ _ fun _ => rfl)
    · rfl

/-- Nor do parameters. -/
theorem breaches_declareParams (params : List Param) :
    Event.breaches rule (ctx.declareParams params p).events = Event.breaches rule p.events := by
  induction params generalizing p with
  | nil => rfl
  | cons param params ih =>
    rw [declareParams]
    refine (ih _).trans (Eq.trans ?_ (p.breaches_absorb (spares_demandType hrule ctx param.type)))
    split
    · rfl
    · exact Progress.breaches_report _ (Rule.ne_of_mem_ofActions hrule (by decide))

/-- Nor does what comes before the body of a member. -/
theorem breaches_memberHead (m : Member) :
    Event.breaches rule (ctx.memberHead m p).events = Event.breaches rule p.events := by
  have hmisnamed : (m.breaks .mismatchInStatement).rule? ≠ some rule :=
    Rule.ne_of_mem_ofActions hrule (by decide)
  rcases m with ⟨decl, span⟩ | ⟨decl, span⟩ | ⟨decl, span⟩ | ⟨decl, span⟩
  · refine (breaches_attributeInits hrule _ _ decl _).trans ?_
    exact Progress.breaches_absorb _ (spares_demandType hrule _ decl.type)
  · rw [memberHead]
    split
    · exact Progress.breaches_absorb _ (spares_demandType hrule ctx _)
    · rfl
  · exact Progress.breaches_demand _ _ hmisnamed
  · exact Progress.breaches_demand _ _ hmisnamed

/-- So none is added up to the first statement of a member. -/
theorem breaches_memberEntry (m : Member) :
    Event.breaches rule (ctx.memberEntry m p).events = Event.breaches rule p.events :=
  (breaches_declareParams hrule _ _ m.params).trans (breaches_memberHead hrule ctx p m)

end Context

end ClassCheck
