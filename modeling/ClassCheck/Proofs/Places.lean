import ClassCheck.Proofs.LayoutChecking
import ClassCheck.Proofs.StmtStatics

/-!
# Reading and writing a place

A place is looked up in one way when it is read and in another when it is written to, but both come
to the same declaration. So a place that can be read takes values of the type that it has, and if
it is assigned to itself, nothing can be wrong but that it is a constant. Likewise a name without a
local declaration and the same name behind the running object lead to the same attribute.
-/

namespace ClassCheck

namespace Checked

theorem pure_bind {α β : Type} (a : α) (f : α → Checked β) : pure a >>= f = f a := rfl

/-- What a check yields does not depend on spans. -/
theorem yields_spanless_iff {α : Type} {c : Checked α} {a : α} :
    c.spanless.Yields a ↔ c.Yields a := by
  rw [Yields, Clean, events_spanless, Event.violations_spanless, List.map_eq_nil_iff]
  rfl

end Checked

/-- No violation came up on the way from one progress to another, unless a statement writes to a
constant. -/
def Progress.OnlyWrites (stmt : Stmt) (p q : Progress) : Prop :=
  Event.violations q.events = Event.violations p.events ∨
    Event.violations q.events =
      Event.violations p.events ++ [stmt.breaks .cannotAssignToConstant]

namespace Progress

variable {stmt : Stmt} {p q : Progress}

private theorem onlyWrites_refl : p.OnlyWrites stmt p := Or.inl rfl

private theorem onlyWrites_report :
    p.OnlyWrites stmt (p.report (stmt.breaks .cannotAssignToConstant)) :=
  Or.inr (Event.violations_append _ _)

private theorem onlyWrites_demand (holds : Bool) :
    p.OnlyWrites stmt (p.demand holds (stmt.breaks .cannotAssignToConstant)) := by
  cases holds with
  | true => exact onlyWrites_refl
  | false => exact onlyWrites_report

/-- A check without violations in front makes no difference. -/
theorem OnlyWrites.of_absorb {α : Type} {c : Checked α} (hc : c.Clean)
    (h : (p.absorb c).OnlyWrites stmt q) : p.OnlyWrites stmt q := by
  have hsame : Event.violations (p.absorb c).events = Event.violations p.events := by
    rw [absorb_events, Event.violations_append, hc, List.append_nil]
  unfold OnlyWrites at h ⊢
  rwa [hsame] at h

end Progress

namespace Context

open Checked

/-! ## Each kind of place -/

/-- A place takes values of a type, which is no reference, and can be written to unless it is a
constant. -/
structure Accepts (ctx : Context) (place : Expr) (T : Ty) (stmt : Stmt) (p : Progress) : Prop where
  /-- The type is no reference. -/
  plain : T.IsPlain
  /-- The place takes values of the type. -/
  takes : (ctx.target stmt place p).1 = .known T
  /-- No violation comes up, unless a constant is written to. -/
  writes : p.OnlyWrites stmt (ctx.target stmt place p).2

section

variable {ctx : Context} {p : Progress} {T : Ty} (stmt : Stmt)

/-- A name that stands for a value is a local name or an attribute of the class. -/
theorem accepts_ident {name : String} {span : Span}
    (h : (ctx.exprType p.scope (.ident name span)).Yields (.known T)) :
    ctx.Accepts (.ident name span) T stmt p := by
  rw [exprType, identType] at h
  cases hb : p.scope.lookup? name with
  | some b =>
    rw [hb] at h
    have hT := yields_readLocal_iff.mp h
    split at hT
    · cases hT
    · cases hT
      refine ⟨b.type.isPlain_decayed, ?_, ?_⟩
      · rw [target, writeName, hb]
        rfl
      · rw [target, writeName, hb]
        dsimp only
        split
        · exact Or.inl rfl
        · exact Progress.onlyWrites_report
  | none =>
    rw [hb] at h
    cases hfound : ctx.table.findAttribute? ctx.className name with
    | some found =>
      rw [hfound] at h
      cases yields_pure_iff.mp h
      refine ⟨found.2.type.isPlain_decayed, ?_, ?_⟩
      · rw [target, writeName, hb, hfound]
        rfl
      · rw [target, writeName, hb, hfound]
        exact Progress.onlyWrites_demand _
    | none =>
      rw [hfound] at h
      dsimp only at h
      split at h <;> simp at h

/-- What is found behind a dot does not depend on what is done with it. -/
theorem accepts_field {object : Expr} {name : String} {span : Span}
    (h : (ctx.exprType p.scope (.field object name span)).Yields (.known T)) :
    ctx.Accepts (.field object name span) T stmt p := by
  rw [exprType, yields_bind_iff] at h
  obtain ⟨τ, hobject, h⟩ := h
  rw [yields_bind_iff] at h
  obtain ⟨found, hfound, h⟩ := h
  cases found with
  | none => cases yields_pure_iff.mp h
  | some found =>
    obtain ⟨owner, info⟩ := found
    cases yields_pure_iff.mp h
    have haccess : (ctx.valueType p.scope object >>=
        ctx.attribute? (.field object name span) name).Yields (some (owner, info)) :=
      yields_bind_iff.mpr ⟨τ, hobject, hfound⟩
    refine ⟨info.type.isPlain_decayed, ?_, ?_⟩
    · rw [target_field, haccess.2]
      rfl
    · rw [target_field, haccess.2]
      refine Progress.OnlyWrites.of_absorb haccess.1 ?_
      dsimp only [writeAttribute]
      split
      · split
        · exact Or.inl rfl
        · exact Progress.onlyWrites_report
      · exact Progress.onlyWrites_refl

/-- An element is written to as it is read. -/
theorem accepts_index {object position : Expr} {span : Span}
    (h : (ctx.valueType p.scope (.index object position span)).Yields (.known T)) :
    ctx.Accepts (.index object position span) T stmt p := by
  refine ⟨?_, h.2, Progress.OnlyWrites.of_absorb h.1 Progress.onlyWrites_refl⟩
  have helement := (yields_demandValue_iff.mp h).1
  rw [exprType, yields_bind_iff] at helement
  obtain ⟨τ, -, helement⟩ := helement
  rw [yields_bind_iff] at helement
  obtain ⟨i, -, helement⟩ := helement
  unfold elementResult at helement
  rw [yields_orMismatch_iff] at helement
  split at helement
  · split at helement
    · cases helement
      exact Ty.isPlain_decayed _
    · cases helement
    · cases helement
  · cases helement

/-- A place that can be read takes values of the type that it has. -/
theorem accepts_of_yields {place : Expr} (hplace : place.isPlace = true)
    (h : (ctx.valueType p.scope place).Yields (.known T)) : ctx.Accepts place T stmt p := by
  have hexpr := (yields_demandValue_iff.mp h).1
  cases place with
  | ident name span => exact accepts_ident stmt hexpr
  | field object name span => exact accepts_field stmt hexpr
  | index object position span => exact accepts_index stmt h
  | _ => cases hplace

end

/-! ## A place assigned to itself -/

/-- The same expression at another place yields the same. -/
theorem yields_of_spanless {ctx : Context} {scope : Scope} {e e' : Expr} {τ : ExprTy}
    (hsame : e'.spanless = e.spanless) (h : (ctx.valueType scope e).Yields τ) :
    (ctx.valueType scope e').Yields τ := by
  rw [← yields_spanless_iff, ← valueType_spanless] at h ⊢
  rwa [hsame]

/-- A place that is assigned to itself fits its own type. -/
theorem onlyWrites_assignment {ctx : Context} {p : Progress} {place value : Expr} {T : Ty}
    (hplace : place.isPlace = true) (hread : (ctx.valueType p.scope place).Yields (.known T))
    (hsame : value.spanless = place.spanless) (stmt : Stmt) :
    p.OnlyWrites stmt (ctx.assignment place value stmt p) := by
  obtain ⟨hclean, hvalue⟩ := yields_of_spanless hsame hread
  -- The value only adds notes, so the place can still be read after it.
  obtain ⟨hplain, htakes, hwrites⟩ := @accepts_of_yields ctx
    (p.absorb (ctx.valueType p.scope value)) T stmt place hplace hread
  have hfits : ctx.table.compatible T (.known T) = true :=
    (ctx.table.compatible_iff T (show (ExprTy.known T).IsPlain from hplain) (by simp)).mpr
      (.same hplain)
  simp only [assignment, withValue, hvalue]
  generalize ctx.target stmt place (p.absorb (ctx.valueType p.scope value)) = written
    at htakes hwrites
  obtain ⟨type, q⟩ := written
  cases htakes
  dsimp only
  rw [hfits]
  exact hwrites.of_absorb hclean

/-! ## The running object -/

/-- An attribute of an object is reached by its name alone where nothing hides it, and by its name
behind the running object. -/
theorem valueType_of_instance_attribute {ctx : Context} {scope : Scope} {name owner : String}
    {info : AttributeInfo} (hctx : ctx.isStatic = false) (hlocal : scope.lookup? name = none)
    (hfound : ctx.table.findAttribute? ctx.className name = some (owner, info))
    (hinfo : info.isStatic = false) (span selfSpan accessSpan : Span) :
    ctx.valueType scope (.ident name span) = pure (.value info.type) ∧
      ctx.valueType scope (.field (.self selfSpan) name accessSpan) = pure (.value info.type) := by
  have hclass : ctx.table.contains ctx.className = true :=
    contains_of_nearest ((ctx.table.findAttribute?_eq_some_iff _ _ _ _).mp hfound)
  constructor
  · rw [valueType, exprType, identType, hlocal, hfound]
    rfl
  · have hself : demandValue (.self selfSpan) (ctx.exprType scope (.self selfSpan)) =
        pure (.known (.object ctx.className)) := by
      rw [exprType, selfType, hctx]
      rfl
    have hattribute : ctx.attribute? (.field (.self selfSpan) name accessSpan) name
        (.known (.object ctx.className)) = pure (some (owner, info)) := by
      rw [attribute?, receiver?_of_denotes .ofObject hclass, Checked.pure_bind]
      simp only [hfound, hinfo, if_true]
    rw [valueType, exprType, hself, Checked.pure_bind, hattribute, Checked.pure_bind]
    rfl

/-- Reading and writing a place agree, whatever the names around it and whatever came up before. A
place that reads without a violation as a value of a type takes values of that type, and assigned to
itself it breaks no rule but that of constants. An attribute of an object that no local name hides
is read alike by its name and through the running object. -/
theorem places_read_as_written (ctx : Context) (p : Progress) :
    (∀ (place : Expr) (T : Ty), place.isPlace = true →
      (ctx.valueType p.scope place).Yields (.known T) →
      (∀ stmt, (ctx.target stmt place p).1 = .known T) ∧
      ∀ (value : Expr) (span : Span), value.spanless = place.spanless →
        Event.violations (ctx.statement (.assign place value span) p).events =
            Event.violations p.events ∨
          Event.violations (ctx.statement (.assign place value span) p).events =
            Event.violations p.events ++
              [Stmt.breaks (.assign place value span) .cannotAssignToConstant]) ∧
    ∀ (name owner : String) (info : AttributeInfo), ctx.isStatic = false →
      p.scope.lookup? name = none →
      ctx.table.findAttribute? ctx.className name = some (owner, info) → info.isStatic = false →
      ∀ span selfSpan accessSpan,
        ctx.valueType p.scope (.ident name span) = pure (.value info.type) ∧
          ctx.valueType p.scope (.field (.self selfSpan) name accessSpan) =
            pure (.value info.type) := by
  refine ⟨fun place T hplace hread => ⟨?_, ?_⟩, fun name owner info hctx hlocal hfound hinfo =>
    valueType_of_instance_attribute hctx hlocal hfound hinfo⟩
  · intro stmt
    exact (accepts_of_yields stmt hplace hread).takes
  · intro value span hsame
    cases hh : ctx.halts p with
    | true =>
      rw [statement_of_halts hh]
      exact Or.inl rfl
    | false =>
      rw [statement_assign hh]
      exact onlyWrites_assignment hplace hread hsame _

/-- A method of a vault, which has a constant code from being a box. -/
def inVault : Context where
  walk := .untilSettled
  table := ⟨[⟨"Vault", some "Box", []⟩, ⟨"Box", none,
    [("code", ⟨some (.attribute ⟨.int, true, false, false⟩), none, false⟩)]⟩], false⟩
  className := "Vault"
  isStatic := false
  inCtor := false
  result := none

/-- With an array of codes at hand, one of them is read and written as a whole number. The code of
the vault is the same attribute with the vault before it and without; it cannot be written to. -/
theorem vault_codes_agree :
    let codes : Progress :=
      ⟨⟨⟨[⟨"codes", .parameter, .reference (.array .int 3), true⟩], 0⟩, []⟩, [], []⟩
    let entry : Expr := .index (.ident "codes" ⟨0, 5⟩) (.ident "code" ⟨6, 10⟩) ⟨0, 11⟩
    let locking : Stmt := .assign (.ident "code" ⟨0, 4⟩) (.ident "code" ⟨8, 12⟩) ⟨0, 12⟩
    (inVault.valueType codes.scope entry).Yields (.known .int) ∧
      (inVault.target locking entry codes).1 = .known .int ∧
      Event.violations (inVault.statement locking codes).events =
        [locking.breaks .cannotAssignToConstant] ∧
      inVault.valueType codes.scope (.ident "code" ⟨0, 4⟩) =
        inVault.valueType codes.scope (.field (.self ⟨0, 4⟩) "code" ⟨0, 9⟩) := by
  intro codes entry locking
  obtain ⟨hplaces, hattributes⟩ := places_read_as_written inVault codes
  have hentry : (inVault.valueType codes.scope entry).Yields (.known .int) := ⟨rfl, rfl⟩
  have hcode : (inVault.valueType codes.scope (.ident "code" ⟨0, 4⟩)).Yields (.known .int) :=
    ⟨rfl, rfl⟩
  refine ⟨hentry, (hplaces entry .int rfl hentry).1 locking, ?_, ?_⟩
  · refine ((hplaces _ .int rfl hcode).2 (.ident "code" ⟨8, 12⟩) ⟨0, 12⟩ rfl).resolve_left ?_
    decide +kernel
  · obtain ⟨hname, hself⟩ := hattributes "code" "Box" ⟨.int, true, false, false⟩ rfl rfl
      (by decide +kernel) rfl ⟨0, 4⟩ ⟨0, 4⟩ ⟨0, 9⟩
    rw [hname, hself]

end Context

end ClassCheck
