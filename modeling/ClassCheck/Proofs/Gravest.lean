import ClassCheck.Checker.Program
import Mathlib.Order.Basic
import Mathlib.Order.Nat

/-!
# The gravest violation, and the first of several

The violation to report from a list is said here without a tracker: the earliest element among
those of the smallest rank. The tracker, which sees the violations one by one and keeps only
one of them, ends with exactly that violation. A list that holds a decisive violation already
determines the answer, whatever comes after it.
-/

namespace ClassCheck

namespace Violation

/-- The place of a violation in the order of priorities, from one for the gravest. -/
def rank (v : Violation) : Nat := v.priority.rank

/-- The earliest element of a list among those of the smallest rank. -/
def gravest? (vs : List Violation) : Option Violation :=
  vs.find? fun v => vs.all fun w => v.rank ≤ w.rank

/-- A violation stands in a list before all others of its rank, and no rank is smaller. -/
def FirstGravest (vs : List Violation) (v : Violation) : Prop :=
  ∃ before after, vs = before ++ v :: after ∧
    (∀ w ∈ before, v.rank < w.rank) ∧ ∀ w ∈ after, v.rank ≤ w.rank

private theorem one_le_rank (v : Violation) : 1 ≤ v.rank := by
  unfold rank
  cases v.priority <;> decide

/-- Decisive violations are exactly those of the smallest rank there is. -/
theorem isDecisive_iff (v : Violation) : v.isDecisive = true ↔ v.rank = 1 := by
  simp only [isDecisive, decide_eq_true_eq, rank]
  cases v.priority <;> decide

/-- A priority outranks another just if its rank is lower. -/
theorem outranks_iff (v w : Violation) :
    v.priority.outranks w.priority = true ↔ v.rank < w.rank := by
  simp only [Priority.outranks, decide_eq_true_eq, rank]

/-- The first gravest violation is one of the violations. -/
theorem FirstGravest.mem {vs : List Violation} {v : Violation} (h : FirstGravest vs v) :
    v ∈ vs := by
  obtain ⟨before, after, rfl, _, _⟩ := h
  exact List.mem_append_right before List.mem_cons_self

/-- No element of the list is of a smaller rank than the violation to report. -/
theorem FirstGravest.rank_le {vs : List Violation} {v : Violation} (h : FirstGravest vs v)
    {w : Violation} (hw : w ∈ vs) : v.rank ≤ w.rank := by
  obtain ⟨before, after, rfl, hb, ha⟩ := h
  rcases List.mem_append.mp hw with hw | hw
  · exact (hb w hw).le
  · rcases List.mem_cons.mp hw with rfl | hw
    · exact le_rfl
    · exact ha w hw

private theorem not_firstGravest_nil (v : Violation) : ¬ FirstGravest [] v := fun h => by
  simpa only [List.not_mem_nil] using h.mem

/-- The head of a list is reported unless the violation to report from the rest is graver. -/
theorem firstGravest_cons_iff (b v : Violation) (vs : List Violation) :
    FirstGravest (b :: vs) v ↔
      (v = b ∧ ∀ w ∈ vs, b.rank ≤ w.rank) ∨ (FirstGravest vs v ∧ v.rank < b.rank) := by
  constructor
  · rintro ⟨before, after, he, hb, ha⟩
    cases before with
    | nil =>
      rw [List.nil_append, List.cons.injEq] at he
      obtain ⟨rfl, rfl⟩ := he
      exact Or.inl ⟨rfl, ha⟩
    | cons x before =>
      rw [List.cons_append, List.cons.injEq] at he
      obtain ⟨rfl, rfl⟩ := he
      have hx := hb b List.mem_cons_self
      exact Or.inr ⟨⟨before, after, rfl, fun w hw => hb w (List.mem_cons_of_mem _ hw), ha⟩, hx⟩
  · rintro (⟨rfl, hall⟩ | ⟨⟨before, after, rfl, hb, ha⟩, hlt⟩)
    · exact ⟨[], vs, rfl, by simp, hall⟩
    · refine ⟨b :: before, after, rfl, ?_, ha⟩
      intro w hw
      rcases List.mem_cons.mp hw with rfl | hw
      · exact hlt
      · exact hb w hw

/-- The search for the earliest element of smallest rank finds what the split describes. -/
theorem gravest?_eq_some_iff (vs : List Violation) (v : Violation) :
    gravest? vs = some v ↔ FirstGravest vs v := by
  rw [gravest?, List.find?_eq_some_iff_append]
  simp only [List.all_eq_true, decide_eq_true_eq, Bool.not_eq_true', List.all_eq_false]
  constructor
  · rintro ⟨hmin, before, after, rfl, hb⟩
    refine ⟨before, after, rfl, ?_, fun w hw => hmin w (by simp [hw])⟩
    intro w hw
    obtain ⟨x, hx, hlt⟩ := hb w hw
    have hv := hmin x hx
    omega
  · intro h
    refine ⟨fun w hw => h.rank_le hw, ?_⟩
    obtain ⟨before, after, rfl, hb, ha⟩ := h
    refine ⟨before, after, rfl, fun w hw => ⟨v, by simp, ?_⟩⟩
    have hlt := hb w hw
    omega

/-- A decisive violation in a list fixes the answer: what follows the list cannot change it. -/
theorem FirstGravest.append {vs : List Violation} {v : Violation} (h : FirstGravest vs v)
    (hd : ∃ w ∈ vs, w.isDecisive = true) (ws : List Violation) :
    FirstGravest (vs ++ ws) v := by
  obtain ⟨d, hmem, hdec⟩ := hd
  have hv : v.rank ≤ 1 := (isDecisive_iff d).mp hdec ▸ h.rank_le hmem
  obtain ⟨before, after, rfl, hb, ha⟩ := h
  refine ⟨before, after ++ ws, by simp, hb, ?_⟩
  intro w hw
  rcases List.mem_append.mp hw with hw | hw
  · exact ha w hw
  · exact hv.trans w.one_le_rank

end Violation

namespace Tracker

open Violation

@[simp] theorem recordAll_nil (t : Tracker) : t.recordAll [] = t := rfl

@[simp] theorem recordAll_cons (t : Tracker) (v : Violation) (vs : List Violation) :
    t.recordAll (v :: vs) = (t.record v).recordAll vs := rfl

/-- A tracker that holds a violation keeps it unless the next one is strictly graver. -/
theorem record_some (b v : Violation) :
    (⟨some b⟩ : Tracker).record v = ⟨some (if v.rank < b.rank then v else b)⟩ := by
  simp only [record, accepts, outranks_iff]
  split <;> rfl

/-- A tracker that holds a violation ends with the one to report from the list that has it in
front. -/
theorem best_recordAll_some_iff (b : Violation) (vs : List Violation) (v : Violation) :
    ((⟨some b⟩ : Tracker).recordAll vs).best = some v ↔ FirstGravest (b :: vs) v := by
  induction vs generalizing b with
  | nil =>
    rw [firstGravest_cons_iff]
    simp [not_firstGravest_nil, eq_comm]
  | cons w vs ih =>
    rw [recordAll_cons, record_some, ih]
    by_cases hlt : w.rank < b.rank
    · rw [if_pos hlt, firstGravest_cons_iff b]
      constructor
      · intro h
        exact Or.inr ⟨h, (h.rank_le List.mem_cons_self).trans_lt hlt⟩
      · rintro (⟨_, hall⟩ | ⟨h, _⟩)
        · have hle := hall w List.mem_cons_self
          omega
        · exact h
    · rw [if_neg hlt, firstGravest_cons_iff b, firstGravest_cons_iff b, firstGravest_cons_iff w]
      constructor
      · rintro (⟨rfl, hall⟩ | ⟨h, hv⟩)
        · exact Or.inl ⟨rfl, by simpa using ⟨by omega, hall⟩⟩
        · exact Or.inr ⟨Or.inr ⟨h, by omega⟩, hv⟩
      · rintro (⟨rfl, hall⟩ | ⟨⟨rfl, _⟩ | ⟨h, _⟩, hv⟩)
        · exact Or.inl ⟨rfl, fun x hx => hall x (List.mem_cons_of_mem _ hx)⟩
        · exact absurd hv hlt
        · exact Or.inr ⟨h, hv⟩

/-- A tracker that holds a violation never loses it without holding another. -/
theorem isSome_best_recordAll_some (b : Violation) (vs : List Violation) :
    ((⟨some b⟩ : Tracker).recordAll vs).best.isSome = true := by
  induction vs generalizing b with
  | nil => rfl
  | cons w vs ih =>
    rw [recordAll_cons, record_some]
    exact ih _

/-- Recording violations one by one finds the earliest of those of smallest rank. -/
theorem best_recordAll (vs : List Violation) : (empty.recordAll vs).best = gravest? vs := by
  cases vs with
  | nil => rfl
  | cons b vs =>
    apply Option.ext
    intro v
    rw [gravest?_eq_some_iff, ← best_recordAll_some_iff]
    rfl

end Tracker

namespace Violation

/-- A list with a violation in it has one to report. -/
theorem gravest?_eq_none_iff (vs : List Violation) : gravest? vs = none ↔ vs = [] := by
  rw [← Tracker.best_recordAll]
  cases vs with
  | nil => simp [Tracker.empty]
  | cons b vs =>
    have hsome := Tracker.isSome_best_recordAll_some b vs
    constructor
    · intro h
      change ((⟨some b⟩ : Tracker).recordAll vs).best = none at h
      rw [h] at hsome
      cases hsome
    · intro h
      cases h

/-- The violation to report is decisive if any is. -/
theorem any_isDecisive_gravest? (vs : List Violation) :
    (gravest? vs).any isDecisive = vs.any isDecisive := by
  cases h : gravest? vs with
  | none =>
    rw [(gravest?_eq_none_iff vs).mp h]
    rfl
  | some v =>
    have hfirst := (gravest?_eq_some_iff vs v).mp h
    rw [Option.any_some, Bool.eq_iff_iff, List.any_eq_true, isDecisive_iff]
    constructor
    · exact fun hv => ⟨v, hfirst.mem, (isDecisive_iff v).mpr hv⟩
    · rintro ⟨w, hw, hd⟩
      have hle := hfirst.rank_le hw
      rw [(isDecisive_iff w).mp hd] at hle
      exact le_antisymm hle v.one_le_rank

/-- After a decisive violation nothing that follows changes which violation is reported. -/
theorem gravest?_append_of_decisive {vs : List Violation} (ws : List Violation)
    (hd : ∃ w ∈ vs, w.isDecisive = true) : gravest? (vs ++ ws) = gravest? vs := by
  cases h : gravest? vs with
  | none =>
    rw [gravest?_eq_none_iff] at h
    subst h
    obtain ⟨w, hw, _⟩ := hd
    cases hw
  | some v => exact (gravest?_eq_some_iff _ _).mpr (((gravest?_eq_some_iff _ _).mp h).append hd ws)

end Violation

/-- A tracker is settled if one of the violations it has seen is decisive. -/
theorem Tracker.settled_recordAll (vs : List Violation) :
    (empty.recordAll vs).settled = vs.any Violation.isDecisive := by
  rw [settled, best_recordAll, Violation.any_isDecisive_gravest?]

namespace ClassTable

/-- The answer for a list of violations: the earliest of the smallest rank, or else whether the
program can start. -/
def answer (t : ClassTable) (vs : List Violation) : Except Violation Unit :=
  match Violation.gravest? vs with
  | some v => .error v
  | none => if t.hasEntryPoint then .ok () else .error .noEntryPoint

/-- The tracker gives the answer for the violations it has seen. -/
theorem judge_eq_answer (t : ClassTable) (events : List Event) :
    t.judge events = t.answer (Event.violations events) := by
  rw [judge, answer, Tracker.result, Tracker.best_recordAll]
  cases Violation.gravest? (Event.violations events) with
  | some v => rfl
  | none => cases t.hasEntryPoint <;> rfl

/-- Apart from the missing entry point, the answer is the first of the gravest violations. -/
theorem answer_eq_error_iff (t : ClassTable) (vs : List Violation) {v : Violation}
    (hv : v ≠ .noEntryPoint) : t.answer vs = .error v ↔ Violation.FirstGravest vs v := by
  rw [← Violation.gravest?_eq_some_iff, answer]
  cases Violation.gravest? vs with
  | some w => simp
  | none => cases t.hasEntryPoint <;> simp [hv.symm]

/-- If there are violations, the answer is one of them. -/
theorem exists_answer_eq_error (t : ClassTable) {vs : List Violation} (h : vs ≠ []) :
    ∃ v ∈ vs, t.answer vs = .error v := by
  obtain ⟨v, hv⟩ := Option.ne_none_iff_exists'.mp (mt (Violation.gravest?_eq_none_iff vs).mp h)
  refine ⟨v, ((Violation.gravest?_eq_some_iff _ _).mp hv).mem, ?_⟩
  rw [answer, hv]

/-- The answer is success exactly if there is no violation and the program can start. -/
theorem answer_eq_ok_iff (t : ClassTable) (vs : List Violation) :
    t.answer vs = .ok () ↔ vs = [] ∧ t.hasEntryPoint = true := by
  rw [← Violation.gravest?_eq_none_iff, answer]
  cases Violation.gravest? vs with
  | some w => simp
  | none => cases t.hasEntryPoint <;> simp

end ClassTable

end ClassCheck
