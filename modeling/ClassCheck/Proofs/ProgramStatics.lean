import ClassCheck.Proofs.Annotations
import ClassCheck.Proofs.EarlyStop
import ClassCheck.Proofs.StmtStatics

/-!
# A program passes the check exactly if it is well formed

Every member is checked in the frames around all of them, so what a member adds to the
violations says whether it is well formed. That needs the table to name declared classes only:
if no violation comes up, the heads of members name no other, and if all members are well formed,
they do neither. Either way the check of members agrees with the static semantics, and that of
the table does anyway.
-/

namespace ClassCheck

namespace Context

/-! ## Members -/

theorem declareParams_cons (ctx : Context) (param : Param) (params : List Param) (p : Progress) :
    ctx.declareParams (param :: params) p = ctx.declareParams params
      (match p.scope.define? ⟨param.name, .parameter, .ofWritten param.type, true⟩ with
        | some scope => { p.absorb (ctx.demandType param.type) with scope := scope }
        | none => (p.absorb (ctx.demandType param.type)).report
            (.broken (.redeclared .parameter) param.name param.span)) := rfl

/-- Parameters are declared without a violation exactly if their types are known and their names
are new and distinct, and then they come last in the innermost frame. -/
theorem clean_declareParams_iff {ctx : Context} (params : List Param) {p : Progress} {Γ : Env} :
    (ctx.declareParams params p).Clean ∧ (ctx.declareParams params p).scope.env = Γ ↔
      p.Clean ∧ (∀ param ∈ params, ctx.table.classes.Knows param.type) ∧
        (params.map (·.name)).Nodup ∧
        (∀ param ∈ params, ∀ l ∈ p.scope.inner.locals, l.name ≠ param.name) ∧
        Γ = (p.scope.inner.locals ++ params.map Param.toLocal) ::
          p.scope.outer.map Frame.locals := by
  induction params generalizing p with
  | nil => simp [declareParams, Scope.env, Scope.frames, eq_comm]
  | cons param params ih =>
    rw [declareParams_cons]
    cases hdefine : p.scope.define? ⟨param.name, .parameter, .ofWritten param.type, true⟩ with
    | none =>
      obtain ⟨l, hl, hname⟩ := (Scope.define?_eq_none_iff _ _).mp hdefine
      constructor
      · rintro ⟨hclean, -⟩
        exact absurd (hclean.of_grows (ctx.declareParams_grows params _))
          Progress.not_clean_report
      · rintro ⟨-, -, -, hnew, -⟩
        exact absurd hname (hnew param List.mem_cons_self l hl)
    | some scope =>
      have hnew : ∀ l ∈ p.scope.inner.locals, l.name ≠ param.name := by
        intro l hl hname
        rw [(Scope.define?_eq_none_iff _ ⟨param.name, _, _, _⟩).mpr ⟨l, hl, hname⟩] at hdefine
        cases hdefine
      obtain ⟨hinner, houter⟩ := List.cons.inj (Scope.env_of_define? hdefine)
      have hclean : Progress.Clean { p.absorb (ctx.demandType param.type) with scope := scope } ↔
          p.Clean ∧ ctx.table.classes.Knows param.type := by
        rw [← clean_demandType_iff]
        exact Progress.clean_absorb_iff
      rw [ih, hclean, hinner, houter]
      simp only [List.forall_mem_cons, List.forall_mem_append, List.map_cons, List.nodup_cons,
        List.mem_map, not_exists, not_and, List.append_assoc, List.singleton_append]
      constructor
      · rintro ⟨⟨hp, hknows⟩, hall, hnodup, hfresh, hΓ⟩
        exact ⟨hp, ⟨hknows, hall⟩, ⟨fun q hq => Ne.symm ((hfresh q hq).2.1), hnodup⟩,
          ⟨hnew, fun q hq => (hfresh q hq).1⟩, hΓ⟩
      · rintro ⟨hp, ⟨hknows, hall⟩, ⟨hne, hnodup⟩, ⟨-, hfresh⟩, hΓ⟩
        exact ⟨⟨hp, hknows⟩, hall, hnodup,
          fun q hq => ⟨hfresh q hq, Ne.symm (hne q hq), List.forall_mem_nil _⟩, hΓ⟩

end Context

/-- The frames are those around all members. -/
def Progress.AtTop (p : Progress) : Prop := p.scope.shape = Scope.global.shape

/-- Around all members there are the names of the outermost frame. -/
theorem Progress.AtTop.env {p : Progress} (h : p.AtTop) : p.scope.env = globalEnv :=
  Scope.env_eq_of_shape h

namespace Context

/-- Parameters that are declared without a violation name declared classes only. -/
theorem Closed.declareParams {ctx : Context} {params : List Param} {p : Progress}
    (h : ctx.Closed p.scope) (hclean : (ctx.declareParams params p).Clean) :
    ctx.Closed (ctx.declareParams params p).scope := by
  refine ⟨h.current, h.table, ?_⟩
  have hp : p.scope.env.Within (ctx.table.Accounts (ctx.declareParams params p).events) :=
    h.scope.mono fun _ => Or.inl
  exact (declareParams_within hp (List.Subset.refl _)).mono fun _ =>
    ClassTable.contains_of_accounts hclean

/-- The parameters of a member have a frame to begin with that holds nothing else. -/
theorem clean_formalParams_iff (ctx : Context) {params : List Param} {p : Progress}
    (htop : p.AtTop) {Γ : Env} :
    (ctx.declareParams params (p.inScope .push)).Clean ∧
        (ctx.declareParams params (p.inScope .push)).scope.env = Γ ↔
      p.Clean ∧ (∀ param ∈ params, ctx.table.classes.Knows param.type) ∧
        (params.map (·.name)).Nodup ∧ Γ = params.map Param.toLocal :: globalEnv := by
  have hinner : (p.inScope .push).scope.inner.locals = [] := rfl
  have houter : (p.inScope .push).scope.outer.map Frame.locals = globalEnv := htop.env
  rw [clean_declareParams_iff, hinner, houter]
  simp

/-- A body is checked without a violation exactly if it is well formed. -/
theorem clean_body_iff {ctx : Context} {params : List Param} {b : Block}
    (hs : Stmt.AllAssignPlaces b.stmts) {p : Progress} (hc : ctx.Closed p.scope)
    (htop : p.AtTop) (hassigned : p.assigned = []) :
    (ctx.body params b p).Clean ↔ p.Clean ∧ BodyOk ctx.setting params b := by
  have hbody : (ctx.body params b p).Clean ↔
      (ctx.statements b.stmts (ctx.declareParams params (p.inScope .push))).Clean := Iff.rfl
  have hloop : (ctx.declareParams params (p.inScope .push)).scope.inLoop = false :=
    (ctx.declareParams_adds params (p.inScope .push)).extends.inLoop.trans
      (Scope.inLoop_eq_of_shape htop)
  have hA : (ctx.declareParams params (p.inScope .push)).assigned = [] :=
    (ctx.declareParams_assigned params (p.inScope .push)).trans hassigned
  have hstmts : ∀ hparams : (ctx.declareParams params (p.inScope .push)).Clean, ∀ Γ A, _ ↔ _ :=
    fun hparams Γ A => ctx.decidesAll b.stmts hs
      (Closed.declareParams (p := p.inScope .push) hc.push hparams) hparams hloop (Γ := Γ) (A := A)
  rw [hA] at hstmts
  rw [hbody]
  constructor
  · intro hclean
    have hparams := hclean.of_grows (ctx.statements_grows b.stmts _)
    obtain ⟨hp, hknows, hnodup, henv⟩ := (ctx.clean_formalParams_iff htop).mp ⟨hparams, rfl⟩
    have hok := (hstmts hparams _ _).mp ⟨hclean, rfl, rfl⟩
    rw [henv] at hok
    exact ⟨hp, hknows, hnodup, _, _, hok⟩
  · rintro ⟨hp, hknows, hnodup, Γ, A, hok⟩
    obtain ⟨hparams, henv⟩ := (ctx.clean_formalParams_iff htop).mpr
      ⟨hp, hknows, hnodup, rfl⟩
    rw [← henv] at hok
    exact ((hstmts hparams Γ A).mpr hok).1

/-- With a demand before it, a body is checked without a violation exactly if the demand is met
and the body is well formed. -/
theorem clean_demandBody_iff {ctx : Context} {params : List Param} {b : Block}
    (hs : Stmt.AllAssignPlaces b.stmts) {p : Progress} (hc : ctx.Closed p.scope)
    (htop : p.AtTop) (hassigned : p.assigned = []) {met : Bool} {v : Violation} :
    (ctx.body params b (p.demand met v)).Clean ↔
      p.Clean ∧ met = true ∧ BodyOk ctx.setting params b := by
  have hscope := p.demand_scope met v
  have hbody := @clean_body_iff ctx params b hs (p.demand met v) (by rwa [hscope])
    (by rwa [Progress.AtTop, hscope]) ((p.demand_assigned met v).trans hassigned)
  rw [hbody, Progress.clean_demand_iff, and_assoc]

/-- Initial values of attributes pass just if each may be one. -/
theorem clean_attributeInits_iff {ctx : Context} {decl : AttributeDecl} (ds : List Declarator)
    {p : Progress} (hc : ctx.Closed p.scope) :
    (ctx.attributeInits decl ds p).Clean ↔ p.Clean ∧ ∀ d ∈ ds, ∀ init, d.init = some init →
      Initializes ctx.setting p.scope.env decl.isFinal (.ofWritten decl.type) init := by
  induction ds generalizing p with
  | nil => simp [attributeInits]
  | cons d ds ih =>
    rw [attributeInits, List.forall_mem_cons, ← and_assoc]
    cases hinit : d.init with
    | none => simpa using ih hc
    | some init =>
      dsimp only
      rw [ih (p := p.absorb _) hc, Progress.clean_absorb_iff, clean_initializer_iff hc]
      simp

end Context

/-- All assignments in a member go to a name, an attribute or an element. -/
def Member.AssignsPlaces : Member → Prop
  | .attribute _ _ => True
  | .method decl _ => Stmt.AllAssignPlaces decl.body.stmts
  | .ctor decl _ => Stmt.AllAssignPlaces decl.body.stmts
  | .dtor decl _ => Stmt.AllAssignPlaces decl.body.stmts

namespace Context

/-- A member is checked without a violation exactly if it is well formed. -/
theorem clean_member_iff {walk : Walk} {t : ClassTable} {c : String} {m : Member}
    (hm : m.AssignsPlaces) {p : Progress} (hc : (ofClass walk t c).Closed p.scope)
    (htop : p.AtTop) :
    ((ofClass walk t c).member m p).Clean ↔ p.Clean ∧ MemberOk t.classes c m := by
  match m with
  | .attribute decl span =>
    have hinits : ((ofClass walk t c).member (.attribute decl span) p).Clean ↔ _ :=
      clean_attributeInits_iff decl.declarators ⟨hc.current, hc.table, hc.scope⟩
    rw [hinits, Progress.clean_absorb_iff, clean_demandType_iff, and_assoc]
    refine and_congr_right fun _ => ?_
    dsimp only [Progress.absorb_scope]
    rw [htop.env]
    constructor
    · rintro ⟨hknows, hok⟩
      exact .ofAttribute hknows hok
    · intro hok
      cases hok with | ofAttribute hknows hok =>
      exact ⟨hknows, hok⟩
  | .method ⟨isStatic, none, name, params, b⟩ span =>
    have hbody : ((ofClass walk t c).member (.method ⟨isStatic, none, name, params, b⟩ span)
        p).Clean ↔ _ := clean_body_iff hm ⟨hc.current, hc.table, hc.scope⟩ htop rfl
    rw [hbody]
    refine and_congr_right fun _ => ⟨fun hok => .ofMethod nofun hok, fun hok => ?_⟩
    cases hok with | ofMethod _ hok =>
    exact hok
  | .method ⟨isStatic, some type, name, params, b⟩ span =>
    have hbody : ((ofClass walk t c).member (.method ⟨isStatic, some type, name, params, b⟩ span)
        p).Clean ↔ _ := clean_body_iff hm ⟨hc.current, hc.table, hc.scope⟩ htop rfl
    rw [hbody, Progress.clean_absorb_iff, clean_demandType_iff, and_assoc]
    refine and_congr_right fun _ => ⟨?_, fun hok => ?_⟩
    · rintro ⟨hknows, hok⟩
      refine .ofMethod ?_ hok
      rintro _ ⟨⟩
      exact hknows
    · cases hok with | ofMethod hknows hok =>
      exact ⟨hknows type rfl, hok⟩
  | .ctor decl span =>
    have hbody : ((ofClass walk t c).member (.ctor decl span) p).Clean ↔ _ :=
      @clean_demandBody_iff ((ofClass walk t c).enter false true none) decl.params decl.body hm
        { p with assigned := [] } ⟨hc.current, hc.table, hc.scope⟩ htop rfl _ _
    rw [hbody, decide_eq_true_iff]
    refine and_congr_right fun _ => ⟨fun ⟨hname, hok⟩ => .ofCtor hname hok, fun hok => ?_⟩
    cases hok with | ofCtor hname hok =>
    exact ⟨hname, hok⟩
  | .dtor decl span =>
    have hbody : ((ofClass walk t c).member (.dtor decl span) p).Clean ↔ _ :=
      @clean_demandBody_iff (ofClass walk t c) [] decl.body hm { p with assigned := [] } hc htop
        rfl _ _
    rw [hbody, decide_eq_true_iff]
    refine and_congr_right fun _ => ⟨fun ⟨hname, hok⟩ => .ofDtor hname hok, fun hok => ?_⟩
    cases hok with | ofDtor hname hok =>
    exact ⟨hname, hok⟩

/-- Members pass just if each is well formed. -/
theorem clean_members_iff {walk : Walk} {t : ClassTable} {c : String} (ms : List Member)
    (hms : ∀ m ∈ ms, m.AssignsPlaces) {p : Progress} (hc : (ofClass walk t c).Closed p.scope)
    (htop : p.AtTop) :
    ((ofClass walk t c).members ms p).Clean ↔ p.Clean ∧ ∀ m ∈ ms, MemberOk t.classes c m := by
  induction ms generalizing p with
  | nil => simp [members]
  | cons m ms ih =>
    rw [List.forall_mem_cons] at hms ⊢
    have hshape := ((ofClass walk t c).member_fills m p).shape
    have hrest := ih hms.2 (hc.of_env (Scope.env_eq_of_shape hshape)) (hshape.trans htop)
    rw [clean_member_iff hms.1 hc htop, and_assoc] at hrest
    refine Progress.clean_iff_of_grows ((ofClass walk t c).members_grows (m :: ms) p) fun hp => ?_
    rw [members, hp.halts, if_neg Bool.false_ne_true]
    exact hrest

end Context

/-! ## Programs -/

/-- All assignments in a program go to a name, an attribute or an element. -/
def Program.AssignsPlaces (p : Program) : Prop :=
  ∀ c ∈ p.classes, ∀ m ∈ c.members, m.AssignsPlaces

namespace ClassTable

/-- Classes are checked without a violation exactly if all their members are well formed, where
the table names only declared classes. -/
theorem clean_checkClasses_iff {t : ClassTable} {walk : Walk}
    (ht : t.classes.Within fun c => t.contains c = true) (hio : t.contains ioClass = true)
    (cs : List ClassDecl) (hcs : ∀ c ∈ cs, t.contains c.name.name = true)
    (hplaces : ∀ c ∈ cs, ∀ m ∈ c.members, m.AssignsPlaces) {p : Progress} (htop : p.AtTop) :
    (t.checkClasses walk cs p).Clean ↔
      p.Clean ∧ ∀ c ∈ cs, ∀ m ∈ c.members, MemberOk t.classes c.name.name m := by
  induction cs generalizing p with
  | nil => simp [checkClasses]
  | cons c cs ih =>
    rw [List.forall_mem_cons] at hcs hplaces ⊢
    have hclosed : (Context.ofClass walk t c.name.name).Closed p.scope := by
      refine ⟨hcs.1, ht, ?_⟩
      rw [htop.env]
      exact Env.within_globalEnv hio
    have hclass : (t.checkClass walk c p).Clean ↔ _ :=
      Context.clean_members_iff c.members hplaces.1 (p := p.note (.enterClass c.name.name))
        hclosed htop
    have hrest := ih hcs.2 hplaces.2 ((t.checkClass_fills walk c p).shape.trans htop)
    rw [hclass, Progress.clean_note_iff rfl, and_assoc] at hrest
    refine Progress.clean_iff_of_grows (t.checkClasses_grows walk (c :: cs) p) fun hp => ?_
    have hhalts : (decide (walk = .untilSettled) && p.settled) = false :=
      hp.halts (Context.ofClass walk t c.name.name)
    rw [checkClasses, hhalts, if_neg Bool.false_ne_true]
    exact hrest

end ClassTable

/-- A well-formed member names only known classes in its head. -/
theorem MemberOk.knows {K : Classes} {c : String} {m : Member} (h : MemberOk K c m) :
    ∀ type ∈ m.annotations, K.Knows type := by
  have hparams : ∀ {S : Setting} {params : List Param} {b : Block}, BodyOk S params b →
      ∀ type ∈ params.map (·.type), S.classes.Knows type := by
    intro S params b hok type htype
    obtain ⟨param, hparam, rfl⟩ := List.mem_map.mp htype
    exact hok.types param hparam
  intro type htype
  cases h with
  | ofAttribute hknows _ =>
    obtain rfl := List.mem_singleton.mp htype
    exact hknows
  | ofMethod hknows hok =>
    rcases List.mem_append.mp htype with hresult | htype
    · exact hknows type (Option.mem_toList.mp hresult)
    · exact hparams hok type htype
  | ofCtor _ hok => exact hparams hok type htype
  | ofDtor _ _ => cases htype

namespace ClassTable

/-- The members of a program are checked without a violation exactly if they are well formed. -/
theorem clean_traverse_iff {p : Program} {t : ClassTable} (hb : build p = .ok t)
    (hplaces : p.AssignsPlaces) :
    Event.violations (t.traverse .exhaustive p) = [] ↔
      ∀ c ∈ p.classes, ∀ m ∈ c.members, MemberOk p.declared c.name.name m := by
  have hclasses := classes_of_build hb
  have hiff : t.classes.Within (fun c => t.contains c = true) →
      ((t.checkClasses .exhaustive p.classes .start).Clean ↔
        ∀ c ∈ p.classes, ∀ m ∈ c.members, MemberOk t.classes c.name.name m) := by
    intro ht
    have hstart : Progress.start.AtTop := rfl
    rw [clean_checkClasses_iff ht (contains_ioClass hb) p.classes
      (fun c hc => contains_of_build hb hc) hplaces hstart]
    exact and_iff_right rfl
  rw [← hclasses]
  -- The table is closed under either side, which is what the equivalence needs.
  constructor
  · intro hclean
    have ht := classes_within_accounts hb
    rw [accounts_eq_contains hclean] at ht
    exact (hiff ht).mp hclean
  · intro hok
    have ht : t.classes.Within fun c => t.contains c = true := by
      rw [hclasses]
      refine Program.declared_within (fun c hc => contains_of_build hb hc) ?_
      intro c hc m hm type htype
      exact Context.within_of_knows ((hok c hc m hm).knows type htype)
    exact (hiff ht).mpr hok

end ClassTable

/-- Where all assignments go to places, the check succeeds exactly on the well-formed programs. -/
theorem Program.check_eq_ok_iff {p : Program} (hplaces : p.AssignsPlaces) :
    p.check = .ok () ↔ p.WellFormed := by
  cases hb : ClassTable.build p with
  | error v =>
    rw [check_of_build_error hb]
    refine ⟨nofun, fun h => ?_⟩
    obtain ⟨t, ht⟩ := ClassTable.exists_build_iff.mpr ⟨h.names, h.parents, h.declarations⟩
    rw [hb] at ht
    cases ht
  | ok t =>
    obtain ⟨hnames, hparents, hdeclarations⟩ := ClassTable.exists_build_iff.mp ⟨t, hb⟩
    rw [check_of_build_ok hb, ClassTable.answer_eq_ok_iff, ClassTable.clean_traverse_iff hb hplaces,
      ClassTable.hasEntryPoint_iff hb]
    constructor
    · rintro ⟨hmembers, hentry⟩
      exact ⟨hnames, hparents, hdeclarations, hmembers, hentry⟩
    · intro h
      exact ⟨h.members, h.entry⟩

end ClassCheck
