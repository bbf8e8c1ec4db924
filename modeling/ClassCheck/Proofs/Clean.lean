import ClassCheck.Proofs.Traversal

/-!
# Checks that find no violation

A check without violations is taken apart step by step: a check followed by another is clean if
both are, a report never is, and a demand is if its condition holds. So a proof about a clean
check reads off what each of its parts found, and never looks at events.
-/

namespace ClassCheck

namespace Event

/-- The violations among events are listed in order. -/
@[simp] theorem violations_append (as bs : List Event) :
    violations (as ++ bs) = violations as ++ violations bs := List.filterMap_append

/-- A violation is listed just if it came up. -/
theorem mem_violations_iff {events : List Event} {v : Violation} :
    v ∈ violations events ↔ .violation v ∈ events := by
  rw [violations, List.mem_filterMap]
  constructor
  · rintro ⟨event, hmem, hv⟩
    cases event <;> simp only [violation?, Option.some.injEq, reduceCtorEq] at hv
    rwa [← hv]
  · intro h
    exact ⟨_, h, rfl⟩

/-- Events are decisive by their violations. -/
theorem any_isDecisive (events : List Event) :
    events.any isDecisive = (violations events).any Violation.isDecisive := by
  rw [violations, List.any_filterMap]
  congr 1
  funext event
  cases event <;> rfl

/-- A decisive event is a decisive violation. -/
theorem exists_decisive {events : List Event} (h : events.any isDecisive = true) :
    ∃ v ∈ violations events, v.isDecisive = true := by
  rw [any_isDecisive] at h
  exact List.any_eq_true.mp h

end Event

namespace Checked

/-- No violation came up. -/
def Clean {α : Type} (c : Checked α) : Prop := Event.violations c.events = []

/-- No violation came up on the way to a value. -/
def Yields {α : Type} (c : Checked α) (a : α) : Prop := c.Clean ∧ c.value = a

/-- A clean check yields its value. -/
theorem Clean.yields {α : Type} {c : Checked α} (h : c.Clean) : c.Yields c.value := ⟨h, rfl⟩

/-- A value that a clean check leads to is the value of the check. -/
theorem exists_yields_iff {α : Type} {c : Checked α} {P : α → Prop} :
    (∃ a, c.Yields a ∧ P a) ↔ c.Clean ∧ P c.value := by
  constructor
  · rintro ⟨a, ⟨hc, rfl⟩, hP⟩
    exact ⟨hc, hP⟩
  · rintro ⟨hc, hP⟩
    exact ⟨_, hc.yields, hP⟩

/-- Without a check a value yields itself. -/
@[simp] theorem yields_pure_iff {α : Type} {a b : α} : (pure a : Checked α).Yields b ↔ a = b :=
  ⟨fun h => h.2, fun h => ⟨rfl, h⟩⟩

/-- Two checks in a row yield what the second yields of what the first does. -/
@[simp] theorem yields_bind_iff {α β : Type} {c : Checked α} {f : α → Checked β} {b : β} :
    (c >>= f).Yields b ↔ ∃ a, c.Yields a ∧ (f a).Yields b := by
  unfold Yields Clean
  rw [bind_events, bind_value, Event.violations_append, List.append_eq_nil_iff]
  constructor
  · rintro ⟨⟨hc, hf⟩, hb⟩
    exact ⟨c.value, ⟨hc, rfl⟩, hf, hb⟩
  · rintro ⟨a, ⟨hc, rfl⟩, hf, hb⟩
    exact ⟨⟨hc, hf⟩, hb⟩

/-- A report yields nothing. -/
@[simp] theorem not_yields_report {v : Violation} {u : Unit} : ¬ (report v).Yields u := by
  intro h
  cases h.1

@[simp] private theorem yields_note_iff {event : Event} {u : Unit} :
    (note event).Yields u ↔ event.violation? = none := by
  cases event <;> simp [Yields, Clean, note, Event.violations, Event.violation?]

/-- What is poisoned yields nothing. -/
@[simp] theorem not_yields_poison {e : Expr} {rule : Rule} {τ : ExprTy} :
    ¬ (poison e rule).Yields τ := by
  simp [poison]

/-- A type is yielded just if there is one. -/
@[simp] theorem yields_orMismatch_iff {e : Expr} {o : Option ExprTy} {τ : ExprTy} :
    (orMismatch e o).Yields τ ↔ o = some τ := by
  cases o <;> simp [orMismatch]

/-- A value is yielded just if the check yields one that is not void. -/
@[simp] theorem yields_demandValue_iff {e : Expr} {c : Checked ExprTy} {τ : ExprTy} :
    (demandValue e c).Yields τ ↔ c.Yields τ ∧ τ ≠ .void := by
  rw [demandValue, yields_bind_iff]
  constructor
  · rintro ⟨a, hc, h⟩
    cases a with
    | void => exact absurd h not_yields_poison
    | _ =>
      obtain rfl := yields_pure_iff.mp h
      exact ⟨hc, by simp⟩
  · rintro ⟨hc, hv⟩
    refine ⟨τ, hc, ?_⟩
    cases τ with
    | void => exact absurd rfl hv
    | _ => exact yields_pure_iff.mpr rfl

end Checked

namespace Progress

/-- No violation came up so far. -/
def Clean (p : Progress) : Prop := Event.violations p.events = []

/-- What is clean at the end was so before. -/
theorem Clean.of_grows {p q : Progress} (h : q.Clean) (hg : p.events <+: q.events) : p.Clean := by
  obtain ⟨rest, he⟩ := hg
  unfold Clean at h
  rw [← he, Event.violations_append, List.append_eq_nil_iff] at h
  exact h.1

/-- What makes a check clean can be looked for from a clean start: a violation is never taken
back. -/
theorem clean_iff_of_grows {p q : Progress} {P : Prop} (hg : p.events <+: q.events)
    (h : p.Clean → (q.Clean ↔ p.Clean ∧ P)) : q.Clean ↔ p.Clean ∧ P := by
  constructor
  · intro hq
    exact (h (hq.of_grows hg)).mp hq
  · rintro ⟨hp, hP⟩
    exact (h hp).mpr ⟨hp, hP⟩

/-- What absorbs a check is clean just if both are. -/
@[simp] theorem clean_absorb_iff {α : Type} {p : Progress} {c : Checked α} :
    (p.absorb c).Clean ↔ p.Clean ∧ c.Clean := by
  unfold Clean Checked.Clean
  rw [absorb_events, Event.violations_append, List.append_eq_nil_iff]

/-- Changes of the scope come with no violation. -/
@[simp] theorem clean_inScope_iff {p : Progress} {f : Scope → Scope} :
    (p.inScope f).Clean ↔ p.Clean := Iff.rfl

/-- A report is never clean. -/
@[simp] theorem not_clean_report {p : Progress} {v : Violation} : ¬ (p.report v).Clean := by
  rw [report, clean_absorb_iff]
  rintro ⟨-, h⟩
  cases h

/-- A demand is clean just if its condition holds. -/
@[simp] theorem clean_demand_iff {p : Progress} {holds : Bool} {v : Violation} :
    (p.demand holds v).Clean ↔ p.Clean ∧ holds = true := by
  cases holds <;> simp [demand]

/-- Other events are clean. -/
theorem clean_note_iff {p : Progress} {event : Event} (h : event.violation? = none) :
    (p.note event).Clean ↔ p.Clean := by
  rw [note, clean_absorb_iff, and_iff_left]
  exact (Checked.yields_note_iff (u := ()).mpr h).1

/-- Declaring a name is clean, even if it fails. -/
theorem clean_define_iff {p : Progress} {b : Binding} {span : Option Span} :
    (p.define b span).Clean ↔ p.Clean := by
  unfold define
  cases p.scope.define? b with
  | some scope => exact Iff.rfl
  | none => exact clean_note_iff rfl

/-- Nothing stops a traversal that has found no violation. -/
theorem Clean.halts {p : Progress} (h : p.Clean) (ctx : Context) : ctx.halts p = false := by
  have hs : p.settled = false := by
    rw [settled, Bool.eq_false_iff]
    intro hd
    obtain ⟨v, hv, -⟩ := Event.exists_decisive hd
    unfold Clean at h
    rw [h] at hv
    cases hv
  rw [Context.halts, hs, Bool.and_false]

end Progress

end ClassCheck
