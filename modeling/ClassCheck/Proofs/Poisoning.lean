import ClassCheck.Proofs.Annotations
import ClassCheck.Proofs.Blame
import ClassCheck.Proofs.StmtStatics
import ClassCheck.Proofs.Visits

/-!
# A type that is not known is never without a violation

An expression gets no known type because of a violation in it, or because one of its parts has
none, or, silently, because it is an access to an object of a class that is not declared. But
such a class stands in a type that is written somewhere, and is reported there. So a traversal
without violations gives a known type to everything it looks at.
-/

namespace ClassCheck

/-- Some of the events are no violations if none of them is. -/
theorem Event.violations_eq_nil_of_subset {as bs : List Event} (h : as ⊆ bs)
    (hbs : violations bs = []) : violations as = [] := by
  rw [List.eq_nil_iff_forall_not_mem] at hbs ⊢
  intro v hv
  exact hbs v (mem_violations_iff.mpr (h (mem_violations_iff.mp hv)))

private theorem Progress.subset_absorb {α : Type} (p : Progress) (c : Checked α) :
    c.events ⊆ (p.absorb c).events := List.subset_append_right _ _

/-- Events account for the type of an expression: the class that it names is declared or
reported, and the type is known unless a violation is reported. -/
structure Visit.Accounted (t : ClassTable) (events : List Event) (v : Visit) : Prop where
  /-- The class named in the type. -/
  within : v.type.Within (t.Accounts events)
  /-- Without violations the type is known. -/
  known : Event.violations events = [] → v.type ≠ .unknown

namespace Context

section

variable {ctx : Context} {events : List Event}
  (hctx : ctx.Within (ctx.table.Accounts events)) {scope : Scope}
  (hscope : scope.env.Within (ctx.table.Accounts events))

include hctx hscope

/-- Without violations, all classes are declared. -/
theorem closed_of_violations_eq_nil (hclean : Event.violations events = []) :
    ctx.Closed scope := by
  rw [ClassTable.accounts_eq_contains hclean] at hctx hscope
  exact ⟨hctx.current, hctx.table, hscope⟩

/-- The type of an expression is accounted for by all events of its check. -/
theorem visit_accounted {e : Expr} (h : (ctx.exprType scope e).events ⊆ events) :
    (ctx.visit scope e).Accounted ctx.table events := by
  refine ⟨exprType_within hctx hscope e, fun hclean => ?_⟩
  have hc := closed_of_violations_eq_nil hctx hscope hclean
  have he : (ctx.exprType scope e).Clean := Event.violations_eq_nil_of_subset h hclean
  exact (hasType_of_yields hc e he.yields).ne_unknown

/-- So is its type as a value. -/
theorem valueVisit_accounted {e : Expr} (h : (ctx.valueType scope e).events ⊆ events) :
    (ctx.valueVisit scope e).Accounted ctx.table events := by
  refine ⟨Checked.within_demandValue (exprType_within hctx hscope e), fun hclean => ?_⟩
  have hc := closed_of_violations_eq_nil hctx hscope hclean
  have he : (ctx.valueType scope e).Clean := Event.violations_eq_nil_of_subset h hclean
  exact ((yields_valueType_iff hc).mp he.yields).1.ne_unknown

/-- In a value position an expression is looked at once more. -/
theorem valueVisits_accounted_of {e : Expr} (h : (ctx.valueType scope e).events ⊆ events)
    (he : ∀ v ∈ ctx.exprVisits scope e, v.Accounted ctx.table events) :
    ∀ v ∈ ctx.valueVisits scope e, v.Accounted ctx.table events :=
  List.forall_mem_append.mpr
    ⟨he, List.forall_mem_singleton.mpr (valueVisit_accounted hctx hscope h)⟩

end

private theorem exprType_subset_valueType (ctx : Context) (scope : Scope) (e : Expr) :
    (ctx.exprType scope e).events ⊆ (ctx.valueType scope e).events :=
  List.subset_append_left _ _

mutual

/-- All types that the check of an expression gives are accounted for. -/
theorem exprVisits_accounted {ctx : Context} {events : List Event}
    (hctx : ctx.Within (ctx.table.Accounts events)) {scope : Scope}
    (hscope : scope.env.Within (ctx.table.Accounts events)) (e : Expr)
    (h : (ctx.exprType scope e).events ⊆ events) :
    ∀ v ∈ ctx.exprVisits scope e, v.Accounted ctx.table events := by
  have hself := List.forall_mem_singleton.mpr (visit_accounted hctx hscope h)
  -- A part that has to be a value adds its events to those of the whole.
  have hpart : ∀ {part : Expr}, (ctx.valueType scope part).events ⊆ events →
      (ctx.exprType scope part).events ⊆ events :=
    fun hvalue => List.Subset.trans (ctx.exprType_subset_valueType scope _) hvalue
  cases e with
  | paren inner span =>
    rw [exprType] at h
    rw [exprVisits, List.forall_mem_append]
    exact ⟨exprVisits_accounted hctx hscope inner h, hself⟩
  | binary op left right span =>
    simp only [exprType, Checked.bind_events, List.append_subset] at h
    obtain ⟨hleft, hright, -⟩ := h
    rw [exprVisits, List.forall_mem_append, List.forall_mem_append]
    exact ⟨⟨valueVisits_accounted_of hctx hscope hleft
        (exprVisits_accounted hctx hscope left (hpart hleft)),
      valueVisits_accounted_of hctx hscope hright
        (exprVisits_accounted hctx hscope right (hpart hright))⟩, hself⟩
  | unary op operand span =>
    simp only [exprType, Checked.bind_events, List.append_subset] at h
    rw [exprVisits, List.forall_mem_append]
    exact ⟨valueVisits_accounted_of hctx hscope h.1
      (exprVisits_accounted hctx hscope operand (hpart h.1)), hself⟩
  | index object position span =>
    simp only [exprType, Checked.bind_events, List.append_subset] at h
    obtain ⟨hobject, hposition, -⟩ := h
    rw [exprVisits, List.forall_mem_append, List.forall_mem_append]
    exact ⟨⟨valueVisits_accounted_of hctx hscope hobject
        (exprVisits_accounted hctx hscope object (hpart hobject)),
      valueVisits_accounted_of hctx hscope hposition
        (exprVisits_accounted hctx hscope position (hpart hposition))⟩, hself⟩
  | field object name span =>
    simp only [exprType, Checked.bind_events, List.append_subset] at h
    rw [exprVisits, List.forall_mem_append]
    exact ⟨valueVisits_accounted_of hctx hscope h.1
      (exprVisits_accounted hctx hscope object (hpart h.1)), hself⟩
  | call receiver method args span =>
    simp only [exprType, Checked.bind_events, List.append_subset] at h
    obtain ⟨hreceiver, -, hargs, -⟩ := h
    rw [exprVisits, List.forall_mem_append, List.forall_mem_append]
    exact ⟨⟨valueVisits_accounted_of hctx hscope hreceiver
        (exprVisits_accounted hctx hscope receiver (hpart hreceiver)),
      argVisits_accounted hctx hscope args hargs⟩, hself⟩
  | create className args span =>
    simp only [exprType, Checked.bind_events, List.append_subset] at h
    rw [exprVisits, List.forall_mem_append]
    exact ⟨argVisits_accounted hctx hscope args h.2.1, hself⟩
  | array elements span =>
    simp only [exprType, Checked.bind_events, List.append_subset] at h
    rw [exprVisits, List.forall_mem_append]
    exact ⟨argVisits_accounted hctx hscope elements h.1, hself⟩
  | _ => exact hself

private theorem argVisits_accounted {ctx : Context} {events : List Event}
    (hctx : ctx.Within (ctx.table.Accounts events)) {scope : Scope}
    (hscope : scope.env.Within (ctx.table.Accounts events)) (es : List Expr)
    (h : (ctx.valueTypes scope es).events ⊆ events) :
    ∀ v ∈ ctx.argVisits scope es, v.Accounted ctx.table events := by
  cases es with
  | nil => exact List.forall_mem_nil _
  | cons e es =>
    simp only [valueTypes, Checked.bind_events, List.append_subset] at h
    obtain ⟨he, hes, -⟩ := h
    rw [argVisits, List.forall_mem_append]
    exact ⟨valueVisits_accounted_of hctx hscope he (exprVisits_accounted hctx hscope e
      (List.Subset.trans (ctx.exprType_subset_valueType scope e) he)),
      argVisits_accounted hctx hscope es hes⟩

end

section

variable {ctx : Context} {events : List Event}
  (hctx : ctx.Within (ctx.table.Accounts events))

include hctx

/-- So are the types of all parts of a value. -/
theorem valueVisits_accounted {scope : Scope}
    (hscope : scope.env.Within (ctx.table.Accounts events)) {e : Expr}
    (h : (ctx.valueType scope e).events ⊆ events) :
    ∀ v ∈ ctx.valueVisits scope e, v.Accounted ctx.table events :=
  valueVisits_accounted_of hctx hscope h (exprVisits_accounted hctx hscope e
    (List.Subset.trans (ctx.exprType_subset_valueType scope e) h))

/-! ## Statements -/

private theorem initVisits_accounted {scope : Scope}
    (hscope : scope.env.Within (ctx.table.Accounts events)) {d : Declarator}
    (h : ∀ init, d.init = some init → (ctx.valueType scope init).events ⊆ events) :
    ∀ v ∈ ctx.initVisits scope d, v.Accounted ctx.table events := by
  unfold initVisits
  split
  · rename_i init hinit
    exact valueVisits_accounted hctx hscope (h init hinit)
  · exact List.forall_mem_nil _

/-- The types of all initial values of local names are accounted for. -/
theorem localVisits_accounted {isFinal : Bool} {T : Ty} {stmt : Stmt}
    (hT : T.Within (ctx.table.Accounts events)) (ds : List Declarator) {p : Progress}
    (hp : p.scope.env.Within (ctx.table.Accounts events))
    (h : (ctx.declareLocals isFinal T stmt ds p).events ⊆ events) :
    ∀ v ∈ ctx.localVisits isFinal T stmt ds p, v.Accounted ctx.table events := by
  induction ds generalizing p with
  | nil => exact List.forall_mem_nil _
  | cons d ds ih =>
    rw [declareLocals] at h
    rw [localVisits]
    split
    · exact List.forall_mem_nil _
    · rename_i hnew
      rw [if_neg hnew] at h
      rw [List.forall_mem_append]
      constructor
      · refine initVisits_accounted hctx hp fun init hinit event hmem => h ?_
        refine (ctx.declareLocals_grows isFinal T stmt ds _).subset
          ((Progress.define_grows _ _ _).subset ?_)
        rw [localInit, hinit]
        exact List.mem_append_right _ (List.mem_append_left _ hmem)
      · exact ih (Progress.define_within (by rwa [localInit_scope]) hT) h

/-- The type of a place is accounted for. -/
theorem target_accounted {stmt : Stmt} {place : Expr} {p : Progress}
    (hp : p.scope.env.Within (ctx.table.Accounts events))
    (h : (ctx.target stmt place p).2.events ⊆ events) :
    Visit.Accounted ctx.table events ⟨place, (ctx.target stmt place p).1⟩ := by
  refine ⟨target_all (hctx.carries hp) stmt place, fun hclean => ?_⟩
  have hc := closed_of_violations_eq_nil hctx hp hclean
  have htarget : (ctx.target stmt place p).2.Clean :=
    Event.violations_eq_nil_of_subset h hclean
  have hstart := htarget.of_grows (ctx.target_grows stmt place p)
  cases place with
  | ident name span =>
    obtain ⟨T, hT, -⟩ := (writeName_iff hstart).mp ⟨htarget, rfl, rfl⟩
    exact hT.trans_ne (by simp)
  | field object name span =>
    obtain ⟨T, hT, -⟩ := (fieldTarget_iff hc hstart).mp ⟨htarget, rfl, rfl⟩
    exact hT.trans_ne (by simp)
  | _ =>
    have hvalue := (Progress.clean_absorb_iff.mp htarget).2
    exact ((yields_valueType_iff hc).mp hvalue.yields).1.ne_unknown

/-- So are the types of all parts of a place to write to. -/
theorem targetVisits_accounted {stmt : Stmt} {place : Expr} {p : Progress}
    (hp : p.scope.env.Within (ctx.table.Accounts events))
    (h : (ctx.target stmt place p).2.events ⊆ events) :
    ∀ v ∈ ctx.targetVisits stmt place p, v.Accounted ctx.table events := by
  refine List.forall_mem_append.mpr
    ⟨?_, List.forall_mem_singleton.mpr (target_accounted hctx hp h)⟩
  cases place with
  | ident name span => exact List.forall_mem_nil _
  | field object name span =>
    refine valueVisits_accounted hctx hp fun event hmem => h ?_
    rw [target_field]
    have hboth : event ∈ (p.absorb (ctx.valueType p.scope object >>=
        ctx.attribute? (.field object name span) name)).events :=
      List.mem_append_right _ (List.mem_append_left _ hmem)
    split
    · exact (ctx.writeAttribute_grows _ _ _ _ _ _).subset hboth
    · exact hboth
  | _ => exact valueVisits_accounted hctx hp (List.Subset.trans (p.subset_absorb _) h)

end

private theorem valueType_subset_condition (ctx : Context) (e : Expr) (stmt : Stmt) (p : Progress) :
    (ctx.valueType p.scope e).events ⊆ (ctx.condition e stmt p).events :=
  List.Subset.trans (p.subset_absorb _) (Progress.demand_grows _ _ _).subset

private theorem valueType_subset_returned (ctx : Context) (e : Expr) (stmt : Stmt) (p : Progress) :
    (ctx.valueType p.scope e).events ⊆ (ctx.returned (some e) stmt p).events :=
  List.Subset.trans (p.subset_absorb _) (Progress.demand_grows _ _ _).subset

private theorem valueType_subset_bounds (ctx : Context) (first last : Expr) (stmt : Stmt)
    (p : Progress) :
    (ctx.valueType p.scope first).events ⊆ (ctx.bounds first last stmt p).events ∧
      (ctx.valueType p.scope last).events ⊆ (ctx.bounds first last stmt p).events :=
  ⟨List.Subset.trans (p.subset_absorb _)
      ((Progress.absorb_grows _ _).trans (Progress.demand_grows _ _ _)).subset,
    List.Subset.trans (Progress.subset_absorb _ _) (Progress.demand_grows _ _ _).subset⟩

/-- All types that a statement gives by itself are accounted for. -/
theorem ownVisits_accounted {ctx : Context} {events : List Event}
    (hctx : ctx.Within (ctx.table.Accounts events)) (s : Stmt) {p : Progress}
    (hp : p.scope.env.Within (ctx.table.Accounts events)) (h : (ctx.own s p).events ⊆ events) :
    ∀ v ∈ ctx.ownVisits s p, v.Accounted ctx.table events := by
  cases s with
  | declare isFinal type ds span =>
    have htype := List.Subset.trans (p.subset_absorb (ctx.demandType type))
      (List.Subset.trans (ctx.declareLocals_grows _ _ _ _ _).subset h)
    exact localVisits_accounted hctx (within_of_demandType htype) ds
      (p := p.absorb (ctx.demandType type)) hp h
  | assign place value span =>
    have htarget := List.Subset.trans
      (ctx.target_prefix_assignment place value (.assign place value span) p).subset h
    have hvalue := List.Subset.trans (p.subset_absorb (ctx.valueType p.scope value))
      (List.Subset.trans (ctx.target_grows _ place _).subset htarget)
    exact List.forall_mem_append.mpr ⟨valueVisits_accounted hctx hp hvalue,
      targetVisits_accounted hctx (p := p.absorb (ctx.valueType p.scope value)) hp htarget⟩
  | ifThen cond thenBranch span =>
    exact valueVisits_accounted hctx hp
      (List.Subset.trans (ctx.valueType_subset_condition _ _ p) h)
  | ifElse cond thenBranch elseBranch span =>
    exact valueVisits_accounted hctx hp
      (List.Subset.trans (ctx.valueType_subset_condition _ _ p) h)
  | loop id first last direction body span =>
    have hcounter := @loopHead_within _ ctx id first last (.loop id first last direction body span)
      p hp
    rw [loopHead, bounds_scope] at hcounter
    have hbounds := ctx.valueType_subset_bounds first last
      (.loop id first last direction body span)
      (ctx.counter id (.loop id first last direction body span) (p.inScope .push))
    exact List.forall_mem_append.mpr
      ⟨valueVisits_accounted hctx hcounter (List.Subset.trans hbounds.1 h),
        valueVisits_accounted hctx hcounter (List.Subset.trans hbounds.2 h)⟩
  | returnValue value span =>
    cases value with
    | none => exact List.forall_mem_nil _
    | some e =>
      exact valueVisits_accounted hctx hp
        (List.Subset.trans (ctx.valueType_subset_returned e _ p) h)
  | call invocation span =>
    exact exprVisits_accounted hctx hp invocation (List.Subset.trans (p.subset_absorb _) h)
  | _ => exact List.forall_mem_nil _

/-- A type is checked where names are declared with it. -/
theorem demandType_subset_own {ctx : Context} {s : Stmt} {type : WrittenType}
    (h : s.declaredType? = some type) (p : Progress) :
    (ctx.demandType type).events ⊆ (ctx.own s p).events := by
  cases s with
  | declare isFinal written ds span =>
    obtain rfl := Option.some.inj h
    exact List.Subset.trans (p.subset_absorb _) (ctx.declareLocals_grows _ _ _ _ _).subset
  | _ => cases h

/-! ## Members -/

/-- The events of each initial value are among those of the attributes. -/
theorem valueType_subset_attributeInits {ctx : Context} {decl : AttributeDecl}
    {ds : List Declarator} {d : Declarator} (hd : d ∈ ds) {init : Expr}
    (hinit : d.init = some init) (p : Progress) :
    (ctx.valueType p.scope init).events ⊆ (ctx.attributeInits decl ds p).events := by
  induction ds generalizing p with
  | nil => cases hd
  | cons first rest ih =>
    rw [attributeInits]
    rcases List.mem_cons.mp hd with rfl | hd
    · rw [hinit]
      intro event hmem
      exact (ctx.attributeInits_grows decl rest _).subset
        (List.mem_append_right _ (List.mem_append_left _ hmem))
    · cases first.init with
      | none => exact ih hd p
      | some _ => exact ih hd (p.absorb _)

/-- All types that the initial values of attributes get are accounted for. -/
theorem headVisits_accounted {ctx : Context} {events : List Event}
    (hctx : ctx.Within (ctx.table.Accounts events)) (m : Member) {p : Progress}
    (hp : p.scope.env.Within (ctx.table.Accounts events))
    (h : (ctx.memberHead m p).events ⊆ events) :
    ∀ v ∈ ctx.headVisits m p, v.Accounted ctx.table events := by
  rcases m with ⟨decl, span⟩ | ⟨decl, span⟩ | ⟨decl, span⟩ | ⟨decl, span⟩
  · intro v hv
    obtain ⟨d, hd, hv⟩ := List.mem_flatMap.mp hv
    have hinits : ∀ init, d.init = some init →
        ((ctx.enter decl.isStatic false none).valueType p.scope init).events ⊆ events :=
      fun init hinit => List.Subset.trans (valueType_subset_attributeInits hd hinit
        (Progress.absorb { p with assigned := [] } (ctx.demandType decl.type))) h
    -- The context of the attributes has the classes of the one around them.
    exact @initVisits_accounted (ctx.enter decl.isStatic false none) events
      ⟨hctx.declared, hctx.table, hctx.current⟩ p.scope hp d hinits v hv
  all_goals exact List.forall_mem_nil _

end Context

/-! ## Steps -/

namespace Step

variable {t : ClassTable} {events : List Event} {step : Step} {p : Progress}

/-- The classes named in the types of local names are declared or reported, after a step as before
it. -/
theorem run_within (hctx : ∀ ctx, step.ctx? = some ctx → ctx.table = t)
    (hp : p.scope.env.Within (t.Accounts events)) (h : (step.run p).events ⊆ events) :
    (step.run p).scope.env.Within (t.Accounts events) := by
  refine run_all (Ty.within_primitive _ _) hp fun type htype => ?_
  cases step with
  | params ctx ps =>
    obtain ⟨param, hparam, rfl⟩ := List.mem_map.mp htype
    obtain rfl := hctx ctx rfl
    exact Context.within_of_demandType
      (List.Subset.trans (Context.demandType_subset_declareParams hparam p) h)
  | stmt ctx place =>
    obtain rfl := hctx ctx rfl
    rw [declaredTypes] at htype
    rw [run] at h
    split at htype
    · cases htype
    · rename_i hhalts
      rw [if_neg hhalts] at h
      exact Context.within_of_demandType
        (List.Subset.trans (Context.demandType_subset_own (Option.mem_toList.mp htype) p) h)
  | _ => cases htype

/-- All types that a step gives are accounted for. -/
theorem visits_accounted (hctx : ∀ ctx, step.ctx? = some ctx → ctx.table = t)
    (hwithin : ∀ ctx, step.ctx? = some ctx → ctx.Within (t.Accounts events))
    (hp : p.scope.env.Within (t.Accounts events)) (h : (step.run p).events ⊆ events) :
    ∀ v ∈ step.visits p, v.Accounted t events := by
  cases step with
  | head ctx m =>
    obtain rfl := hctx ctx rfl
    exact Context.headVisits_accounted (hwithin ctx rfl) m hp h
  | stmt ctx place =>
    obtain rfl := hctx ctx rfl
    rw [run] at h
    rw [visits]
    split
    · exact List.forall_mem_nil _
    · rename_i hhalts
      rw [if_neg hhalts] at h
      exact Context.ownVisits_accounted (hwithin ctx rfl) place.stmt hp h
  | _ => exact List.forall_mem_nil _

/-- All types that steps give are accounted for, as long as what comes up on the way does. -/
theorem collect_visits_accounted {steps : List Step}
    (hctx : ∀ step ∈ steps, ∀ ctx, step.ctx? = some ctx →
      ctx.table = t ∧ ctx.Within (t.Accounts events))
    (hp : p.scope.env.Within (t.Accounts events)) (h : (runAll p steps).events ⊆ events) :
    ∀ v ∈ collect visits p steps, v.Accounted t events := by
  induction steps generalizing p with
  | nil => exact List.forall_mem_nil _
  | cons step steps ih =>
    obtain ⟨hstep, hsteps⟩ := List.forall_mem_cons.mp hctx
    have hfirst := List.Subset.trans (runAll_grows steps (step.run p)).subset h
    refine List.forall_mem_append.mpr ⟨?_, ih hsteps ?_ h⟩
    · exact visits_accounted (fun ctx hc => (hstep ctx hc).1) (fun ctx hc => (hstep ctx hc).2) hp
        hfirst
    · exact run_within (fun ctx hc => (hstep ctx hc).1) hp hfirst

end Step

/-! ## Programs -/

namespace ClassTable

/-- A traversal that stops early finds no violation that one that leaves nothing out does not
find. -/
theorem traverse_subset_exhaustive (t : ClassTable) (p : Program) :
    t.traverse .untilSettled p ⊆ t.traverse .exhaustive p := by
  rcases t.traverse_untilSettled p with he | ⟨-, hprefix⟩
  · rw [he]
    exact List.Subset.refl _
  · exact hprefix.subset

/-- All types that the check of members gives are accounted for by the events of the whole
program. -/
theorem visits_accounted {p : Program} {t : ClassTable} (hb : build p = .ok t) :
    ∀ v ∈ t.visits .untilSettled p, v.Accounted t (t.traverse .exhaustive p) := by
  refine Step.collect_visits_accounted (fun step hstep ctx hctx => ?_)
    (Env.within_globalEnv (Or.inl (contains_ioClass hb))) ?_
  · have hin := t.inClasses_classesTrace .untilSettled (List.Subset.refl _) .start step hstep
    obtain ⟨-, rfl, c, hc, hname⟩ := hin.of_ctx? hctx
    have hcurrent : ctx.table.contains ctx.className = true := by
      rw [hname]
      exact contains_of_build hb hc
    exact ⟨rfl, fun _ => Or.inl, classes_within_accounts hb, Or.inl hcurrent⟩
  · rw [events_runAll_trace]
    exact t.traverse_subset_exhaustive p

end ClassTable

/-- No class is found before a dot, without a report, if the type there is not known or the
class is not declared. -/
theorem Context.receiver?_yields_none_iff {ctx : Context} {access : Expr} {τ : ExprTy} :
    (ctx.receiver? access τ).Yields none ↔
      τ = .unknown ∨ ∃ c, τ = .known (.object c) ∧ ctx.table.contains c = false := by
  unfold receiver?
  split
  · simp
  · rename_i c
    cases hc : ctx.table.contains c <;> simp [hc]
  · simp
  · rename_i hclass hobject hunknown
    refine ⟨fun h => ?_, ?_⟩
    · obtain ⟨u, hu, -⟩ := Checked.yields_bind_iff.mp h
      exact absurd hu Checked.not_yields_report
    · rintro (rfl | ⟨c, rfl, -⟩)
      · exact absurd rfl hunknown
      · exact absurd rfl (hobject c)

namespace Program

/-- A violation of an exhaustive traversal makes the program fail, and not for lack of an entry
point. -/
theorem exists_check_eq_error {p : Program} {t : ClassTable} (hb : ClassTable.build p = .ok t)
    (h : Event.violations (t.traverse .exhaustive p) ≠ []) :
    ∃ v, p.check = .error v ∧ v ≠ .noEntryPoint := by
  obtain ⟨v, hv, he⟩ := t.exists_answer_eq_error h
  exact ⟨v, (check_of_build_ok hb).trans he, (ClassTable.faults_of_traverse hv).ne_noEntryPoint⟩

/-- The link of the running object. -/
def ownLink : Expr := .field (.self ⟨0, 0⟩) "link" ⟨0, 0⟩

/-- A method that opens a link, in a class that declares the link later and with a class that is
not there. -/
def opensMissing : Program where
  classes := [{
    name := ⟨"Main", ⟨0, 0⟩⟩
    parent := none
    members := [
      .method ⟨true, none, "main", [], ⟨[], ⟨0, 0⟩⟩⟩ ⟨0, 0⟩,
      .method ⟨false, none, "run", [], ⟨[.call (.call ownLink "open" [] ⟨0, 0⟩) ⟨0, 0⟩],
        ⟨0, 0⟩⟩⟩ ⟨0, 0⟩,
      .attribute ⟨false, false, .named "Link" ⟨0, 0⟩, [⟨"link", none, ⟨0, 0⟩⟩]⟩ ⟨0, 0⟩]
    span := ⟨0, 0⟩ }]
  span := ⟨0, 0⟩

/-- The table of its classes. -/
def opensMissingTable : ClassTable where
  entries := [ClassTable.ioEntry, ⟨"Main", none, [
    ("link", ⟨some (.attribute ⟨.object "Link", false, false, false⟩), none, false⟩),
    ("run", ⟨some (.method ⟨none, [], false⟩), none, false⟩),
    ("main", ⟨some (.method ⟨none, [], true⟩), none, false⟩)]⟩]
  hasEntryPoint := true

end Program

end ClassCheck
