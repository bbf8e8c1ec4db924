import ClassCheck.Proofs.Breaches

/-!
# Checks that differ in wording only

A check reads the parts of an expression or statement, and uses the whole only to say what breaks
a rule, and where. So two checks come to the same if the parts do: they have the same values and
break the same rules in the same order, whatever the texts and places they report. Rules are also
all that the answer for a program depends on, except for how it is worded.
-/

namespace ClassCheck

/-- Whether a violation is decisive is told by its rule. -/
theorem Violation.isDecisive_eq (v : Violation) :
    v.isDecisive = v.rule?.any fun rule => rule.priority = .declaration := by
  cases v <;> rfl

namespace Event

/-- The rules that events break, in order. -/
def rules (events : List Event) : List (Option Rule) := (violations events).map Violation.rule?

@[simp] private theorem rules_append (as bs : List Event) :
    rules (as ++ bs) = rules as ++ rules bs := by
  rw [rules, violations_append, List.map_append, rules, rules]

/-- Whether events are decisive is told by the rules that they break. -/
theorem any_isDecisive_eq (events : List Event) : events.any isDecisive =
    (rules events).any (·.any fun rule => rule.priority = .declaration) := by
  rw [any_isDecisive, rules, List.any_map]
  congr 1
  funext v
  exact v.isDecisive_eq

end Event

/-! ## Expressions -/

namespace Checked

/-- Two checks have the same value and break the same rules. -/
structure Alike {α : Type} (c d : Checked α) : Prop where
  /-- The values are the same. -/
  value : c.value = d.value
  /-- The rules are the same, in the same order. -/
  rules : Event.rules c.events = Event.rules d.events

section

variable {α β : Type}

/-- A check is like itself. -/
theorem Alike.refl (c : Checked α) : c.Alike c := ⟨rfl, rfl⟩

/-- Checks in a row are alike if each is like the other one in its place. -/
theorem Alike.bind {c d : Checked α} {f g : α → Checked β} (h : c.Alike d)
    (hnext : ∀ a, (f a).Alike (g a)) : (c >>= f).Alike (d >>= g) := by
  have hrest := hnext d.value
  constructor
  · rw [bind_value, bind_value, h.value, hrest.value]
  · rw [bind_events, bind_events, Event.rules_append, Event.rules_append, h.rules, h.value,
      hrest.rules]

/-- Reports of the same rule are alike. -/
theorem alike_report {v w : Violation} (h : v.rule? = w.rule?) : (report v).Alike (report w) :=
  ⟨rfl, congrArg ([·]) h⟩

end

private theorem alike_poison (e e' : Expr) (rule : Rule) : (poison e rule).Alike (poison e' rule) :=
  ⟨rfl, rfl⟩

/-- Whether there is a type is told alike, whoever is blamed. -/
theorem alike_orMismatch (e e' : Expr) (type : Option ExprTy) :
    (orMismatch e type).Alike (orMismatch e' type) := by
  cases type with
  | none => exact alike_poison e e' _
  | some type => exact .refl _

/-- A value is asked for alike, whoever is blamed. -/
theorem Alike.demandValue {c d : Checked ExprTy} (h : c.Alike d) (e e' : Expr) :
    (demandValue e c).Alike (demandValue e' d) := by
  refine h.bind fun type => ?_
  cases type with
  | void => exact alike_poison e e' _
  | _ => exact .refl _

end Checked

namespace Context

open Checked

variable (ctx : Context)

private theorem alike_receiver? (access access' : Expr) (object : ExprTy) :
    (ctx.receiver? access object).Alike (ctx.receiver? access' object) := by
  unfold receiver?
  split <;> exact ⟨rfl, rfl⟩

/-- An attribute behind a dot is found alike, whatever expression is blamed. -/
theorem alike_attribute? (access access' : Expr) (name : String) (object : ExprTy) :
    (ctx.attribute? access name object).Alike (ctx.attribute? access' name object) := by
  refine (ctx.alike_receiver? access access' object).bind fun receiver => ?_
  cases receiver with
  | none => exact .refl _
  | some receiver =>
    dsimp only
    split
    · exact ⟨rfl, rfl⟩
    · split <;> exact ⟨rfl, rfl⟩

/-- So is a method. -/
theorem alike_method? (call call' : Expr) (name : String) (object : ExprTy) :
    (ctx.method? call name object).Alike (ctx.method? call' name object) := by
  refine (ctx.alike_receiver? call call' object).bind fun receiver => ?_
  cases receiver with
  | none => exact .refl _
  | some receiver =>
    dsimp only
    split
    · exact ⟨rfl, rfl⟩
    · split <;> exact ⟨rfl, rfl⟩

/-- The result of a call does not depend on how the call is worded. -/
theorem alike_callResult (call call' : Expr) (signature : Option Signature)
    (args : List ExprTy) :
    (ctx.callResult call signature args).Alike (ctx.callResult call' signature args) := by
  unfold callResult
  split
  · exact .refl _
  · split <;> exact ⟨rfl, rfl⟩

/-- That a class is declared is demanded alike. -/
theorem alike_demandClass (className : String) (e e' : Expr) :
    (ctx.demandClass className e).Alike (ctx.demandClass className e') := by
  unfold demandClass
  split <;> exact ⟨rfl, rfl⟩

/-- The result of a creation does not depend on how it is worded. -/
theorem alike_createResult (e e' : Expr) (className : String) (args : List ExprTy) :
    (ctx.createResult e className args).Alike (ctx.createResult e' className args) := by
  unfold createResult
  split
  · dsimp only
    split <;> exact ⟨rfl, rfl⟩
  · exact .refl _

/-- The result of an array literal does not depend on how it is worded. -/
theorem alike_arrayResult (e e' : Expr) (types : List ExprTy) :
    (arrayResult e types).Alike (arrayResult e' types) := by
  unfold arrayResult
  split
  · exact .refl _
  · split <;> exact ⟨rfl, rfl⟩

end Context

/-- No check can tell two expressions apart: they have the same types and break the same rules,
and are the running object or constant together. -/
structure Expr.Alike (e e' : Expr) : Prop where
  /-- The types and the rules broken are the same wherever the expressions stand. -/
  types : ∀ ctx scope, (Context.exprType ctx scope e).Alike (ctx.exprType scope e')
  /-- Both are the running object, or neither is. -/
  isSelf : e.isSelf = e'.isSelf
  /-- Both are constant, or neither is. -/
  isConstant : e.isConstant = e'.isConstant

/-- Expressions that no check can tell apart have values alike. -/
theorem Expr.Alike.valueType {e e' : Expr} (h : e.Alike e') (ctx : Context) (scope : Scope) :
    (ctx.valueType scope e).Alike (ctx.valueType scope e') :=
  (h.types ctx scope).demandValue e e'

/-- A demand before a check leaves checks alike. -/
theorem Checked.alike_unless {α : Type} {c d : Checked α} (h : c.Alike d) (holds : Bool)
    {v w : Violation} (hrule : v.rule? = w.rule?) :
    Alike (if holds = true then c else do report v; c)
      (if holds = true then d else do report w; d) := by
  cases holds with
  | true => exact h
  | false => exact (alike_report hrule).bind fun _ => h

/-- Initial values that no check can tell apart are checked alike. -/
theorem Context.alike_initializer (ctx : Context) (scope : Scope) (isFinal : Bool) (declared : Ty)
    {init init' : Expr} (h : init.Alike init') {blame blame' : Rule → Violation}
    (hblame : ∀ rule, (blame rule).rule? = (blame' rule).rule?) :
    (ctx.initializer scope isFinal declared init blame).Alike
      (ctx.initializer scope isFinal declared init' blame') := by
  have hconstant := h.isConstant
  unfold Expr.isConstant at hconstant
  refine (h.valueType ctx scope).bind fun actual => ?_
  dsimp only
  refine Checked.alike_unless ?_ _ (hblame _)
  split
  · -- The part that is not constant is only noted, and the whole is what breaks the rule.
    cases hinit : init.firstNonConstant? <;> cases hinit' : init'.firstNonConstant? <;>
      first
      | exact ⟨rfl, rfl⟩
      | simp [hinit, hinit'] at hconstant
  · exact .refl _

/-! ## Statements -/

namespace Progress

/-- Two checks have come equally far: to the same names, with the same rules broken. -/
structure Alike (p q : Progress) : Prop where
  /-- The local names are the same. -/
  scope : p.scope = q.scope
  /-- The same final attributes have a value. -/
  assigned : p.assigned = q.assigned
  /-- The rules broken so far are the same, in the same order. -/
  rules : Event.rules p.events = Event.rules q.events

variable {p q : Progress} (h : p.Alike q)

include h

/-- Alike checks leave alike what absorbs them. -/
theorem Alike.absorb {α : Type} {c d : Checked α} (hc : c.Alike d) :
    (p.absorb c).Alike (q.absorb d) := by
  refine ⟨h.scope, h.assigned, ?_⟩
  rw [absorb_events, absorb_events, Event.rules_append, Event.rules_append, h.rules, hc.rules]

/-- The same event leaves checks alike. -/
theorem Alike.note (event : Event) : (p.note event).Alike (q.note event) := h.absorb (.refl _)

/-- Reports of the same rule leave checks alike. -/
theorem Alike.report {v w : Violation} (hrule : v.rule? = w.rule?) :
    (p.report v).Alike (q.report w) := h.absorb (Checked.alike_report hrule)

/-- Demands for the same rule leave checks alike. -/
theorem Alike.demand (holds : Bool) {v w : Violation} (hrule : v.rule? = w.rule?) :
    (p.demand holds v).Alike (q.demand holds w) := by
  unfold Progress.demand
  split
  · exact h
  · exact h.report hrule

/-- Frames are put on and taken off alike. -/
theorem Alike.inScope (f : Scope → Scope) : (p.inScope f).Alike (q.inScope f) :=
  ⟨congrArg f h.scope, h.assigned, h.rules⟩

/-- A name is declared alike. -/
theorem Alike.define (b : Binding) (span : Option Span) :
    (p.define b span).Alike (q.define b span) := by
  unfold Progress.define
  rw [h.scope]
  split
  · exact ⟨rfl, h.assigned, h.rules⟩
  · exact h.note _

/-- Checks that have come equally far are settled together. -/
theorem Alike.settled : p.settled = q.settled := by
  rw [Progress.settled, Event.any_isDecisive_eq, h.rules, ← Event.any_isDecisive_eq,
    Progress.settled]

/-- So they halt together. -/
theorem Alike.halts (ctx : Context) : ctx.halts p = ctx.halts q := by
  rw [Context.halts, h.settled, Context.halts]

end Progress

namespace Context

/-- The same is taken at a place, and two checks have come equally far. -/
def AlikeTargets (a b : ExprTy × Progress) : Prop := a.1 = b.1 ∧ a.2.Alike b.2

variable (ctx : Context) {p q : Progress} (hp : p.Alike q) (stmt stmt' : Stmt)

include hp

/-- What follows a value comes to the same if it does for every type. -/
theorem alike_withValue {α : Type} {R : α → α → Prop} {e e' : Expr} (he : e.Alike e')
    {next next' : ExprTy → Progress → α}
    (hnext : ∀ type p q, Progress.Alike p q → R (next type p) (next' type q)) :
    R (ctx.withValue e p next) (ctx.withValue e' q next') := by
  have hvalue := he.valueType ctx p.scope
  unfold withValue
  dsimp only
  rw [← hp.scope, ← hvalue.value]
  exact hnext _ _ _ (hp.absorb hvalue)

private theorem alike_writeAttribute {object object' : Expr} (hobject : object.Alike object')
    (name owner : String) (info : AttributeInfo) :
    (ctx.writeAttribute stmt object name owner info p).Alike
      (ctx.writeAttribute stmt' object' name owner info q) := by
  unfold writeAttribute mayInitialize
  rw [hobject.isSelf, hp.assigned]
  split
  · split
    · exact ⟨hp.scope, rfl, hp.rules⟩
    · exact hp.report rfl
  · exact hp

/-- A name is written to alike, wherever it stands. -/
theorem alike_writeName (name : String) (span span' : Span) :
    AlikeTargets (ctx.writeName stmt name span p) (ctx.writeName stmt' name span' q) := by
  unfold writeName
  rw [hp.scope]
  split
  · dsimp only
    split
    · exact ⟨rfl, hp.inScope (·.markInitialized name)⟩
    · exact ⟨rfl, hp.report rfl⟩
  · split
    · exact ⟨rfl, hp.demand _ rfl⟩
    · split
      · exact ⟨rfl, hp.report rfl⟩
      · exact ⟨rfl, hp.report rfl⟩

/-- An attribute is written to alike if the objects cannot be told apart. -/
theorem alike_target_field {object object' : Expr} (hobject : object.Alike object')
    (name : String) (span span' : Span) :
    AlikeTargets (ctx.target stmt (.field object name span) p)
      (ctx.target stmt' (.field object' name span') q) := by
  unfold target
  refine ctx.alike_withValue hp hobject fun type p q hp => ?_
  have hfound := ctx.alike_attribute? (.field object name span) (.field object' name span') name
    type
  have hp' := hp.absorb hfound
  dsimp only
  rw [← hfound.value]
  split
  · exact ⟨rfl, ctx.alike_writeAttribute hp' stmt stmt' hobject _ _ _⟩
  · exact ⟨rfl, hp'⟩

/-- Assignments are alike if the values and the places are. -/
theorem alike_assignment {place place' value value' : Expr} (hvalue : value.Alike value')
    (htarget : ∀ p q, Progress.Alike p q →
      AlikeTargets (ctx.target stmt place p) (ctx.target stmt' place' q)) :
    (ctx.assignment place value stmt p).Alike (ctx.assignment place' value' stmt' q) := by
  unfold assignment
  refine ctx.alike_withValue hp hvalue fun actual p q hp => ?_
  have htargets := htarget p q hp
  generalize ctx.target stmt place p = a, ctx.target stmt' place' q = b at htargets ⊢
  obtain ⟨type, p'⟩ := a
  obtain ⟨type', q'⟩ := b
  obtain ⟨rfl, hq⟩ : type = type' ∧ p'.Alike q' := htargets
  cases type with
  | known expected => exact hq.demand _ rfl
  | _ => exact hq

/-- Conditions that cannot be told apart are checked alike. -/
theorem alike_condition {e e' : Expr} (he : e.Alike e') :
    (ctx.condition e stmt p).Alike (ctx.condition e' stmt' q) :=
  ctx.alike_withValue hp he fun _ _ _ hp => hp.demand _ rfl

/-- So are bounds of a loop. -/
theorem alike_loopHead (id : Ident) {first first' last last' : Expr} (hfirst : first.Alike first')
    (hlast : last.Alike last') :
    (ctx.loopHead id first last stmt p).Alike (ctx.loopHead id first' last' stmt' q) := by
  have hcounter : ∀ p q, Progress.Alike p q →
      (ctx.counter id stmt p).Alike (ctx.counter id stmt' q) := by
    intro p q hp
    unfold counter
    rw [hp.scope]
    split
    · dsimp only
      refine (hp.demand _ ?_).demand _ ?_ <;> rfl
    · exact hp.define _ _
  unfold loopHead bounds
  refine ctx.alike_withValue (hcounter _ _ (hp.inScope .push)) hfirst fun a p q hp => ?_
  exact ctx.alike_withValue hp hlast fun b p q hp => hp.demand _ rfl

/-- So are values that are returned. -/
theorem alike_returned {e e' : Expr} (he : e.Alike e') :
    (ctx.returned (some e) stmt p).Alike (ctx.returned (some e') stmt' q) := by
  unfold returned
  dsimp only
  exact ctx.alike_withValue hp he fun _ _ _ hp => hp.demand _ rfl

end Context

/-! ## Answers -/

/-- How grave a violation is is told by its rule. -/
theorem Violation.rank_eq (v : Violation) :
    v.rank = (v.rule?.elim Priority.entryPoint Rule.priority).rank := by
  cases v <;> rfl

/-- The rule of the gravest violation is found among the rules alone. -/
theorem Violation.map_rule?_gravest? (vs : List Violation) :
    (gravest? vs).map rule? = (vs.map rule?).find? fun rule => (vs.map rule?).all fun other =>
      (rule.elim Priority.entryPoint Rule.priority).rank ≤
        (other.elim Priority.entryPoint Rule.priority).rank := by
  simp only [gravest?, List.find?_map, List.all_map, Function.comp_def, rank_eq]

/-- The answers for violations of the same rules name the same rule. -/
theorem ClassTable.answer_rule? (t : ClassTable) {vs ws : List Violation}
    (h : vs.map Violation.rule? = ws.map Violation.rule?) :
    (t.answer vs).mapError Violation.rule? = (t.answer ws).mapError Violation.rule? := by
  have hgravest : (Violation.gravest? vs).map Violation.rule? =
      (Violation.gravest? ws).map Violation.rule? := by
    rw [Violation.map_rule?_gravest?, h, ← Violation.map_rule?_gravest?]
  unfold answer
  cases hvs : Violation.gravest? vs <;> cases hws : Violation.gravest? ws
  case none.none => rfl
  case some.some v w =>
    rw [hvs, hws] at hgravest
    exact congrArg Except.error (Option.some.inj hgravest)
  all_goals
    rw [hvs, hws] at hgravest
    cases hgravest

end ClassCheck
