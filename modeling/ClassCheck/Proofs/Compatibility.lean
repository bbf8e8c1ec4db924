import ClassCheck.Proofs.Ancestry
import Mathlib.Order.Defs.Unbundled

/-!
# The order of types

A value of one type can be stored in a place of another. On the types of values this is a preorder
with three kinds of steps: a type is below itself, whole numbers are below floating-point ones, and
a class is below those that it inherits from. An array is below nothing but itself, whatever its
elements are. A reference to a place takes what the place takes, up to one pair: no whole number
stands for a floating-point one there.
-/

namespace ClassCheck

/-- The types of values, which are no references. -/
abbrev ValueTy : Type := { T : Ty // T.isReference = false }

@[simp] theorem ValueTy.decayed_val (T : ValueTy) : T.val.decayed = T.val := by
  obtain ⟨T, hT⟩ := T
  cases T with
  | reference referent => cases hT
  | _ => rfl

/-- A whole number stands where a floating-point number is declared. -/
def Widens (expected : Ty) (τ : ExprTy) : Prop :=
  expected = .float ∧ ∃ actual, τ = .known actual ∧ actual.decayed = .int

/-- An integer alone widens, and only to a floating-point number. -/
theorem widens_known_iff {expected actual : Ty} :
    Widens expected (.known actual) ↔ expected = .float ∧ actual.decayed = .int := by
  simp [Widens]

/-- The null value belongs to classes and to arrays, references aside. -/
theorem Ty.isNullable_iff_decayed (T : Ty) : T.isNullable = true ↔
    (∃ c, T.decayed = .object c) ∨ ∃ element size, T.decayed = .array element size := by
  unfold isNullable
  cases T.decayed <;> simp

namespace ClassTable

section

variable (t : ClassTable)

/-! ## Places and references to them -/

/-- What fits a reference is what can be bound to it. -/
theorem compatible_reference_known (T : ValueTy) (actual : Ty) :
    t.compatible (.reference T.val) (.known actual) =
      t.bindsReference T.val actual.decayed := by
  rw [compatible, T.decayed_val]

/-- What fits a place is what can be bound to a reference to it, and what is widened. -/
theorem compatible_known_iff (T : ValueTy) (actual : Ty) :
    t.compatible T.val (.known actual) = true ↔
      Widens T.val (.known actual) ∨ t.bindsReference T.val actual.decayed = true := by
  have hstored : t.compatible T.val (.known actual) = t.isAssignable T.val actual.decayed := by
    obtain ⟨T, hT⟩ := T
    cases T with
    | reference referent => cases hT
    | _ => rfl
  rw [hstored, isAssignable_iff, widens_known_iff]

/-- A number that would be widened cannot be bound to a reference. -/
theorem bindsReference_of_widens {expected actual : Ty} (h : Widens expected (.known actual)) :
    t.bindsReference expected actual.decayed = false := by
  obtain ⟨rfl, hint⟩ := widens_known_iff.mp h
  rw [hint]
  rfl

/-- Whatever fits a reference to a place fits the place. -/
theorem compatible_of_reference {T : ValueTy} {τ : ExprTy}
    (h : t.compatible (.reference T.val) τ = true) : t.compatible T.val τ = true := by
  cases τ with
  | known actual =>
    rw [compatible_reference_known] at h
    exact (t.compatible_known_iff T actual).mpr (Or.inr h)
  | _ => exact h

/-- What fits a place fits a reference to it, unless it has to be widened. -/
theorem compatible_reference_iff (T : ValueTy) (τ : ExprTy) :
    (t.compatible T.val τ = true → t.compatible (.reference T.val) τ = true) ↔
      ¬ Widens T.val τ := by
  cases τ with
  | known actual =>
    rw [compatible_reference_known, compatible_known_iff]
    constructor
    · intro himp hwidens
      have hbinds := himp (Or.inl hwidens)
      rw [t.bindsReference_of_widens hwidens] at hbinds
      cases hbinds
    · rintro hno (hwidens | hbinds)
      · exact absurd hwidens hno
      · exact hbinds
  | _ =>
    refine iff_of_true id ?_
    rintro ⟨-, _, ⟨⟩, -⟩

/-! ## The order -/

/-- The steps of the order are equalities, widenings of numbers and ways up the classes. -/
theorem compatible_value_iff (S T : ValueTy) :
    t.compatible T.val (.known S.val) = true ↔
      S = T ∨ S.val = .int ∧ T.val = .float ∨
        ∃ sub sup, S.val = .object sub ∧ T.val = .object sup ∧ t.isSubclass sub sup = true := by
  have hbinds := t.bindsReference_iff T.decayed_val S.decayed_val
  rw [compatible_known_iff, widens_known_iff, S.decayed_val, hbinds, Subtype.ext_iff]
  simp only [isSubclass_iff]
  constructor
  · rintro (⟨hT, hS⟩ | h | ⟨sub, sup, hT, hS, hsub⟩)
    · exact Or.inr (Or.inl ⟨hS, hT⟩)
    · exact Or.inl h.symm
    · exact Or.inr (Or.inr ⟨sub, sup, hS, hT, hsub⟩)
  · rintro (h | ⟨hS, hT⟩ | ⟨sub, sup, hS, hT, hsub⟩)
    · exact Or.inr (Or.inl h.symm)
    · exact Or.inl ⟨hT, hS⟩
    · exact Or.inr (Or.inr ⟨sub, sup, hT, hS, hsub⟩)

/-- On the types of values compatibility is a preorder. -/
theorem isPreorder_compatible :
    IsPreorder ValueTy fun S T => t.compatible T.val (.known S.val) = true where
  refl S := (t.compatible_value_iff S S).mpr (Or.inl rfl)
  trans S T U hST hTU := by
    rw [compatible_value_iff] at hST hTU ⊢
    rcases hST with rfl | ⟨hS, hT⟩ | ⟨sub, mid, hS, hT, hsub⟩
    · exact hTU
    · -- Nothing is above floating-point numbers.
      rcases hTU with rfl | ⟨hT', -⟩ | ⟨_, _, hT', -⟩
      · exact Or.inr (Or.inl ⟨hS, hT⟩)
      · rw [hT] at hT'
        cases hT'
      · rw [hT] at hT'
        cases hT'
    · rcases hTU with rfl | ⟨hT', -⟩ | ⟨mid', sup, hT', hU, hsup⟩
      · exact Or.inr (Or.inr ⟨sub, mid, hS, hT, hsub⟩)
      · rw [hT] at hT'
        cases hT'
      · obtain rfl := Ty.object.inj (hT.symm.trans hT')
        rw [isSubclass_iff_reflTransGen] at hsub hsup
        exact Or.inr (Or.inr ⟨sub, sup, hS, hU,
          (t.isSubclass_iff_reflTransGen sub sup).mpr (hsub.trans hsup)⟩)

/-- An array is above and below nothing but itself. -/
theorem compatible_array_iff {S T : ValueTy}
    (h : (∃ element size, S.val = .array element size) ∨
      ∃ element size, T.val = .array element size) :
    t.compatible T.val (.known S.val) = true ↔ S = T := by
  rw [compatible_value_iff, or_iff_left]
  rintro (⟨hS, hT⟩ | ⟨sub, sup, hS, hT, -⟩)
  · simp [hS, hT] at h
  · simp [hS, hT] at h

end

/-- In a table that could be built, values can be stored up a preorder of types. Its steps are
equalities, the widening of whole numbers, and declared inheritance; arrays take part in the first
kind only. References take no widening, and nothing else sets them apart from the places they refer
to. The null value fits classes and arrays, references to them included; what is no value fits
nothing, and what is not known fits everywhere. -/
theorem compatible_orders_types {p : Program} {t : ClassTable} (h : build p = .ok t) :
    IsPreorder ValueTy (fun S T => t.compatible T.val (.known S.val) = true) ∧
    (∀ S T : ValueTy, t.compatible T.val (.known S.val) = true ↔
      S = T ∨ S.val = .int ∧ T.val = .float ∨
        ∃ sub sup, S.val = .object sub ∧ T.val = .object sup ∧ t.isSubclass sub sup = true) ∧
    (∀ sub sup, t.isSubclass sub sup = true ↔ p.declared.Inherits sub sup) ∧
    (∀ S T : ValueTy,
      ((∃ element size, S.val = .array element size) ∨
        ∃ element size, T.val = .array element size) →
      (t.compatible T.val (.known S.val) = true ↔ S = T)) ∧
    (∀ (T : ValueTy) (τ : ExprTy),
      (t.compatible (.reference T.val) τ = true → t.compatible T.val τ = true) ∧
      ((t.compatible T.val τ = true → t.compatible (.reference T.val) τ = true) ↔
        ¬ (T.val = .float ∧ ∃ S, τ = .known S ∧ S.decayed = .int))) ∧
    ∀ T : Ty,
      (t.compatible T .nil = true ↔
        (∃ c, T.decayed = .object c) ∨ ∃ element size, T.decayed = .array element size) ∧
      t.compatible T .void = false ∧ (∀ c, t.compatible T (.classRef c) = false) ∧
      t.compatible T .unknown = true := by
  refine ⟨t.isPreorder_compatible, t.compatible_value_iff, ?_, fun S T => t.compatible_array_iff,
    fun T τ => ⟨t.compatible_of_reference, t.compatible_reference_iff T τ⟩,
    fun T => ⟨T.isNullable_iff_decayed, rfl, fun _ => rfl, rfl⟩⟩
  intro sub sup
  rw [isSubclass_iff, classes_of_build h]

/-- Among classes of which two extend each other: the order leads into the circle and not out of
it, arrays of these classes do not follow it, and only numbers tell a place from a reference. -/
theorem ring_types_ordered : build ringProgram = .ok ringTable ∧
    ringProgram.declared.Inherits "Chick" "Hen" ∧
    ringTable.compatible (.object "Hen") (.known (.object "Chick")) = true ∧
    ringTable.compatible (.array (.object "Hen") 2) (.known (.array (.object "Chick") 2)) = false ∧
    ringTable.compatible (.reference (.object "Hen")) (.known (.object "Chick")) = true ∧
    ¬ (ringTable.compatible .float (.known (.reference .int)) = true →
      ringTable.compatible (.reference .float) (.known (.reference .int)) = true) ∧
    ringTable.compatible (.reference (.array .int 3)) .nil = true := by
  have hbuilt : build ringProgram = .ok ringTable := by decide +kernel
  obtain ⟨horder, hsteps, hinherits, harrays, hreferences, hothers⟩ :=
    compatible_orders_types hbuilt
  have hup : ringTable.compatible (.object "Hen") (.known (.object "Chick")) = true := by
    refine horder.trans ⟨.object "Chick", rfl⟩ ⟨.object "Egg", rfl⟩ ⟨.object "Hen", rfl⟩ ?_ ?_
    · exact (hsteps _ _).mpr (Or.inr (Or.inr ⟨"Chick", "Egg", rfl, rfl, by decide +kernel⟩))
    · exact (hsteps _ _).mpr (Or.inr (Or.inr ⟨"Egg", "Hen", rfl, rfl, by decide +kernel⟩))
  refine ⟨hbuilt, (hinherits "Chick" "Hen").mp (by decide +kernel), hup, ?_, ?_, ?_, ?_⟩
  · rw [Bool.eq_false_iff]
    intro hfits
    have hsame := (harrays ⟨.array (.object "Chick") 2, rfl⟩ ⟨.array (.object "Hen") 2, rfl⟩
      (Or.inl ⟨_, _, rfl⟩)).mp hfits
    exact absurd hsame (by decide)
  · exact (hreferences ⟨.object "Hen", rfl⟩ _).2.mpr (by simp) hup
  · intro himp
    exact (hreferences ⟨.float, rfl⟩ _).2.mp himp ⟨rfl, _, rfl, rfl⟩
  · exact (hothers (.reference (.array .int 3))).1.mpr (Or.inr ⟨_, _, rfl⟩)

end ClassTable

end ClassCheck
