import ClassCheck.Proofs.Hierarchy
import ClassCheck.Types.Rules
import Mathlib.Data.List.Forall2

/-!
# The type rules as relations

Which values fit a declared type, which operands an operator takes and what the elements of an
array literal share, each as a relation with one rule for each case and none for what is not
known. On the types that expressions have, which are never references, the computed rules
decide these relations.
-/

namespace ClassCheck

namespace Ty

/-- The types the null value belongs to: classes, arrays, and references to them. -/
inductive Nullable : Ty → Prop
  | object {c : String} : Nullable (.object c)
  | array {element : Ty} {size : Nat} : Nullable (.array element size)
  | reference {referent : Ty} : Nullable referent → Nullable (.reference referent)

/-- The types of numbers. -/
inductive Numeric : Ty → Prop
  | int : Numeric .int
  | float : Numeric .float

/-- A type other than a reference. -/
def IsPlain (T : Ty) : Prop := T.decayed = T

/-- What a type leads to is not a reference. -/
theorem isPlain_decayed (T : Ty) : T.decayed.IsPlain := by
  induction T with
  | primitive type => rfl
  | object c => rfl
  | array element size _ => rfl
  | reference referent ih => exact ih

/-- The computed test for types of the null value decides the relation. -/
theorem isNullable_iff (T : Ty) : T.isNullable = true ↔ T.Nullable := by
  induction T with
  | primitive type => exact ⟨fun h => by simp [isNullable, decayed] at h, fun h => by cases h⟩
  | object c => exact ⟨fun _ => .object, fun _ => rfl⟩
  | array element size _ => exact ⟨fun _ => .array, fun _ => rfl⟩
  | reference referent ih =>
    refine ⟨fun h => .reference (ih.mp h), ?_⟩
    rintro (_ | _ | h)
    exact ih.mpr h

section

variable {a b : Ty} (ha : a.IsPlain)

include ha

/-- The test for integers finds that type alone. -/
theorem isInt_iff : a.isInt = true ↔ a = .int := by
  rw [isInt, ha, decide_eq_true_iff]

/-- The test for truth values finds that type alone. -/
theorem isBoolean_iff : a.isBoolean = true ↔ a = .boolean := by
  rw [isBoolean, ha, decide_eq_true_iff]

private theorem isString_iff : a.isString = true ↔ a = .string := by
  rw [isString, ha, decide_eq_true_iff]

private theorem isNumeric_iff : a.isNumeric = true ↔ a.Numeric := by
  rw [isNumeric, ha, Bool.or_eq_true, decide_eq_true_iff, decide_eq_true_iff]
  constructor
  · rintro (rfl | rfl)
    · exact .int
    · exact .float
  · rintro (_ | _)
    · exact Or.inl rfl
    · exact Or.inr rfl

/-- Types that are no references are the same just if they are equal. -/
theorem same_iff (hb : b.IsPlain) : a.same b = true ↔ a = b := by
  rw [same, ha, hb, decide_eq_true_iff]

end

end Ty

namespace ExprTy

/-- The type of a value, if there is one, is not a reference. -/
def IsPlain : ExprTy → Prop
  | .known T => T.IsPlain
  | _ => True

/-- The type of a value is not a reference. -/
theorem isPlain_value (T : Ty) : (value T).IsPlain := T.isPlain_decayed

end ExprTy

/-! ## Values and declared types -/

/-- A value fits a declared type if it has that type, references aside; if it is a whole number
and a floating-point number is declared; or if it is an object of a class that inherits from the
declared one. The null value fits classes and arrays. -/
inductive Classes.Fits (K : Classes) : Ty → ExprTy → Prop
  | same {expected actual : Ty} : expected.decayed = actual → Fits K expected (.known actual)
  | widened : Fits K .float (.known .int)
  | inherited {expected : Ty} {sub sup : String} : expected.decayed = .object sup →
      K.Inherits sub sup → Fits K expected (.known (.object sub))
  | null {expected : Ty} : expected.Nullable → Fits K expected .nil

/-- What has no value fits no type. -/
theorem Classes.Fits.ne_void {K : Classes} {T : Ty} {τ : ExprTy} (h : K.Fits T τ) :
    τ ≠ .void := by
  cases h <;> simp

/-- Arguments fit parameters one by one. -/
def Classes.FitAll (K : Classes) (params : List (String × Ty)) (args : List ExprTy) : Prop :=
  List.Forall₂ (fun param arg => K.Fits param.2 arg) params args

namespace ClassTable

/-- A reference is bound to a value of the same class or of a subclass, or else to the same type. -/
theorem bindsReference_iff (t : ClassTable) {expected actual : Ty} (he : expected.IsPlain)
    (ha : actual.IsPlain) :
    t.bindsReference expected actual = true ↔
      expected = actual ∨ ∃ sub sup, expected = .object sup ∧ actual = .object sub ∧
        t.classes.Inherits sub sup := by
  unfold bindsReference
  split
  · rename_i sup sub
    rw [isSubclass_iff]
    constructor
    · intro h
      exact Or.inr ⟨sub, sup, rfl, rfl, h⟩
    · rintro (h | ⟨_, _, h₁, h₂, h⟩)
      · cases h
        exact .refl
      · cases h₁
        cases h₂
        exact h
  · rename_i hno
    rw [Ty.same_iff he ha]
    constructor
    · exact Or.inl
    · rintro (h | ⟨sub, sup, h₁, h₂, -⟩)
      · exact h
      · exact absurd h₂ (hno sup sub h₁)

/-- What a place takes is what a reference to it can be bound to, and whole numbers for
floating-point ones. -/
theorem isAssignable_iff (t : ClassTable) (expected actual : Ty) :
    t.isAssignable expected actual = true ↔
      (expected = .float ∧ actual = .int) ∨ t.bindsReference expected actual = true := by
  unfold isAssignable
  split
  · simp
  · simp [bindsReference]
  · rename_i hfloat hobject
    have hbinds : t.bindsReference expected actual = expected.same actual := by
      unfold bindsReference
      split
      · exact absurd rfl (hobject _ _ rfl)
      · rfl
    rw [hbinds]
    constructor
    · exact Or.inr
    · rintro (⟨h₁, h₂⟩ | h)
      · exact absurd h₂ (hfloat h₁)
      · exact h

/-- A known value fits a declared type by widening, or else as it binds a reference. -/
theorem fits_known_iff (t : ClassTable) (expected : Ty) {actual : Ty} (ha : actual.IsPlain) :
    t.classes.Fits expected (.known actual) ↔
      (expected = .float ∧ actual = .int) ∨
        t.bindsReference expected.decayed actual = true := by
  rw [t.bindsReference_iff expected.isPlain_decayed ha]
  constructor
  · intro h
    cases h with
    | same h => exact Or.inr (Or.inl h)
    | widened => exact Or.inl ⟨rfl, rfl⟩
    | inherited h hi => exact Or.inr (Or.inr ⟨_, _, h, rfl, hi⟩)
  · rintro (⟨rfl, rfl⟩ | h | ⟨sub, sup, h, rfl, hi⟩)
    · exact .widened
    · exact .same h
    · exact .inherited h hi

/-- The computed test says whether an expression fits a declared type. -/
theorem compatible_iff (t : ClassTable) (expected : Ty) {τ : ExprTy} (hp : τ.IsPlain)
    (hu : τ ≠ .unknown) : t.compatible expected τ = true ↔ t.classes.Fits expected τ := by
  cases τ with
  | unknown => exact absurd rfl hu
  | nil =>
    refine (expected.isNullable_iff).trans ⟨.null, ?_⟩
    intro h
    cases h with
    | null h => exact h
  | void => exact ⟨fun h => by simp [compatible] at h, fun h => by cases h⟩
  | classRef c => exact ⟨fun h => by simp [compatible] at h, fun h => by cases h⟩
  | known actual =>
    have ha : actual.decayed = actual := hp
    rw [t.fits_known_iff expected hp]
    cases expected with
    | reference referent => simp [compatible, ha, Ty.decayed]
    | primitive type => simp only [compatible, ha, isAssignable_iff, Ty.decayed]
    | object c => simp only [compatible, ha, isAssignable_iff, Ty.decayed]
    | array element size => simp only [compatible, ha, isAssignable_iff, Ty.decayed]

/-- The computed test says whether arguments fit parameters. -/
theorem argumentsFit_iff (t : ClassTable) (params : List (String × Ty)) {args : List ExprTy}
    (hp : ∀ τ ∈ args, τ.IsPlain) (hu : ∀ τ ∈ args, τ ≠ .unknown) :
    t.argumentsFit params args = true ↔ t.classes.FitAll params args := by
  unfold argumentsFit Classes.FitAll
  rw [Bool.and_eq_true, decide_eq_true_iff, List.forall₂_iff_zip, List.all_eq_true]
  refine and_congr_right fun _ => ?_
  constructor
  · intro h param arg hmem
    have harg := (List.of_mem_zip hmem).2
    exact (t.compatible_iff param.2 (hp arg harg) (hu arg harg)).mp (h (param, arg) hmem)
  · rintro h ⟨param, arg⟩ hmem
    have harg := (List.of_mem_zip hmem).2
    exact (t.compatible_iff param.2 (hp arg harg) (hu arg harg)).mpr (h hmem)

end ClassTable

/-! ## Operators -/

/-- The expressions that can be tested for equality: values of one type, two numbers, and the
null value with itself and with what it belongs to. -/
inductive ExprTy.Equatable : ExprTy → ExprTy → Prop
  | same {T : Ty} : Equatable (.known T) (.known T)
  | numbers {a b : Ty} : a.Numeric → b.Numeric → Equatable (.known a) (.known b)
  | nullLeft {T : Ty} : T.Nullable → Equatable .nil (.known T)
  | nullRight {T : Ty} : T.Nullable → Equatable (.known T) .nil
  | nulls : Equatable .nil .nil

/-- The operands that a binary operator takes, with the type of the result. -/
inductive BinaryOp.Takes : BinaryOp → ExprTy → ExprTy → Ty → Prop
  | integers {op : BinaryOp} : op.isArithmetic = true → Takes op (.known .int) (.known .int) .int
  | floats {op : BinaryOp} {a b : Ty} : op.isArithmetic = true → a.Numeric → b.Numeric →
      a = .float ∨ b = .float → Takes op (.known a) (.known b) .float
  | order {op : BinaryOp} {a b : Ty} : op.isRelational = true → a.Numeric → b.Numeric →
      Takes op (.known a) (.known b) .boolean
  | equality {op : BinaryOp} {a b : ExprTy} : op.isEquality = true → a.Equatable b →
      Takes op a b .boolean
  | logic {op : BinaryOp} : op.isLogical = true →
      Takes op (.known .boolean) (.known .boolean) .boolean
  | concat : Takes .concat (.known .string) (.known .string) .string

/-- The operands that a unary operator takes; the result has the same type. -/
inductive UnaryOp.Takes : UnaryOp → Ty → Prop
  | neg {T : Ty} : T.Numeric → Takes .neg T
  | plus {T : Ty} : T.Numeric → Takes .plus T
  | not : Takes .not .boolean

namespace ExprTy

/-- The computed test for comparable operands decides the relation. -/
theorem comparable_iff {a b : ExprTy} (ha : a.IsPlain) (hb : b.IsPlain) :
    a.comparable b = true ↔ a.Equatable b := by
  constructor
  · intro h
    unfold comparable at h
    split at h
    · exact .nulls
    · exact .nullLeft ((Ty.isNullable_iff _).mp h)
    · exact .nullRight ((Ty.isNullable_iff _).mp h)
    · rw [Bool.or_eq_true, Bool.and_eq_true, Ty.same_iff ha hb, Ty.isNumeric_iff ha,
        Ty.isNumeric_iff hb] at h
      rcases h with rfl | ⟨h₁, h₂⟩
      · exact .same
      · exact .numbers h₁ h₂
    · cases h
  · intro h
    cases h with
    | same => simp [comparable, Ty.same]
    | numbers h₁ h₂ =>
      simp [comparable, (Ty.isNumeric_iff ha).mpr h₁, (Ty.isNumeric_iff hb).mpr h₂]
    | nullLeft h => exact (Ty.isNullable_iff _).mpr h
    | nullRight h => exact (Ty.isNullable_iff _).mpr h
    | nulls => rfl

/-- What an operator yields on numbers is a floating-point number unless both are whole. -/
theorem takes_of_arithmetic {op : BinaryOp} (hop : op.isArithmetic = true) {a b : Ty}
    (ha : a.Numeric) (hb : b.Numeric) :
    op.Takes (.known a) (.known b) (if a.isInt && b.isInt then .int else .float) := by
  cases ha with
  | float => exact .floats hop .float hb (Or.inl rfl)
  | int =>
    cases hb with
    | float => exact .floats hop .int .float (Or.inr rfl)
    | int => exact .integers hop

/-- What an operator computes on two types is one of its rules. -/
theorem takes_of_operated {op : BinaryOp} (hop : op.isEquality = false) {a b T : Ty}
    (ha : a.IsPlain) (hb : b.IsPlain) (h : operated op a b = some T) :
    op.Takes (.known a) (.known b) T := by
  unfold operated at h
  split at h
  · rename_i harith
    split at h
    · rename_i hnum
      rw [Bool.and_eq_true, Ty.isNumeric_iff ha, Ty.isNumeric_iff hb] at hnum
      obtain rfl := Option.some.inj h
      exact takes_of_arithmetic harith hnum.1 hnum.2
    · cases h
  · split at h
    · rename_i hrel
      split at h
      · rename_i hnum
        rw [Bool.and_eq_true, Ty.isNumeric_iff ha, Ty.isNumeric_iff hb] at hnum
        obtain rfl := Option.some.inj h
        exact .order hrel hnum.1 hnum.2
      · cases h
    · split at h
      · rename_i hlogic
        split at h
        · rename_i hbool
          rw [Bool.and_eq_true, Ty.isBoolean_iff ha, Ty.isBoolean_iff hb] at hbool
          obtain ⟨rfl, rfl⟩ := hbool
          obtain rfl := Option.some.inj h
          exact .logic hlogic
        · cases h
      · rename_i harith hrel hlogic
        split at h
        · rename_i hstring
          rw [Bool.and_eq_true, Ty.isString_iff ha, Ty.isString_iff hb] at hstring
          obtain ⟨rfl, rfl⟩ := hstring
          obtain rfl := Option.some.inj h
          -- Concatenation is the only operator outside the four families.
          cases op <;> first | exact .concat | simp_all [BinaryOp.isArithmetic,
            BinaryOp.isRelational, BinaryOp.isLogical, BinaryOp.isEquality]
        · cases h

/-- The operands that an operator takes are values or null, so a result is always known. -/
theorem binary?_of_takes {op : BinaryOp} {a b : ExprTy} {T : Ty} (ha : a.IsPlain)
    (hb : b.IsPlain) (h : op.Takes a b T) : binary? op a b = some (.known T) := by
  cases h with
  | integers hop => cases op <;> first | rfl | cases hop
  | floats hop h₁ h₂ hf =>
    rename_i a b
    have hint : (a.isInt && b.isInt) = false := by
      rcases hf with rfl | rfl
      · rfl
      · simp [Ty.isInt, Ty.decayed]
    have hop' : op.isEquality = false := by cases op <;> first | rfl | cases hop
    simp [binary?, isUnknown, hop', known?, operated, hop, hint,
      (Ty.isNumeric_iff ha).mpr h₁, (Ty.isNumeric_iff hb).mpr h₂]
  | order hop h₁ h₂ =>
    have hop' : op.isEquality = false ∧ op.isArithmetic = false := by
      cases op <;> first | exact ⟨rfl, rfl⟩ | cases hop
    simp [binary?, isUnknown, hop', known?, operated, hop,
      (Ty.isNumeric_iff ha).mpr h₁, (Ty.isNumeric_iff hb).mpr h₂]
  | equality hop he =>
    have hknown : (a.isUnknown || b.isUnknown) = false := by cases he <;> rfl
    simp [binary?, hknown, hop, (comparable_iff ha hb).mpr he]
  | logic hop => cases op <;> first | rfl | cases hop
  | concat => rfl

/-- The computed result of an operator is the one of the relation. -/
theorem binary?_eq_some_iff {op : BinaryOp} {a b τ : ExprTy} (ha : a.IsPlain) (hb : b.IsPlain)
    (ua : a ≠ .unknown) (ub : b ≠ .unknown) :
    binary? op a b = some τ ↔ ∃ T, τ = .known T ∧ op.Takes a b T := by
  constructor
  · intro h
    have hknown : (a.isUnknown || b.isUnknown) = false := by
      cases a <;> cases b <;> first | rfl | exact absurd rfl ua | exact absurd rfl ub
    rw [binary?, hknown, if_neg Bool.false_ne_true] at h
    split at h
    · rename_i hop
      split at h
      · rename_i hcmp
        obtain rfl := Option.some.inj h
        exact ⟨_, rfl, .equality hop ((comparable_iff ha hb).mp hcmp)⟩
      · cases h
    · rename_i hop
      cases a <;> cases b <;> simp only [known?] at h <;> try cases h
      obtain ⟨T, hT, rfl⟩ := Option.map_eq_some_iff.mp h
      exact ⟨T, rfl, takes_of_operated (Bool.eq_false_iff.mpr hop) ha hb hT⟩
  · rintro ⟨T, rfl, h⟩
    exact binary?_of_takes ha hb h

/-- A sign in front keeps the types that it takes, and takes no others. -/
theorem unary?_eq_some_iff {op : UnaryOp} {a τ : ExprTy} (ha : a.IsPlain) (ua : a ≠ .unknown) :
    unary? op a = some τ ↔ ∃ T, a = .known T ∧ τ = .known T ∧ op.Takes T := by
  cases a with
  | unknown => exact absurd rfl ua
  | nil => simp [unary?, isUnknown, known?]
  | void => simp [unary?, isUnknown, known?]
  | classRef c => simp [unary?, isUnknown, known?]
  | known T =>
    have hvalue : value T = .known T := congrArg known ha
    cases op with
    | neg =>
      have htakes : T.isNumeric = true ↔ UnaryOp.neg.Takes T :=
        (Ty.isNumeric_iff ha).trans ⟨.neg, fun h => by cases h with | neg h => exact h⟩
      simp [unary?, isUnknown, known?, hvalue, htakes, eq_comm, and_comm]
    | plus =>
      have htakes : T.isNumeric = true ↔ UnaryOp.plus.Takes T :=
        (Ty.isNumeric_iff ha).trans ⟨.plus, fun h => by cases h with | plus h => exact h⟩
      simp [unary?, isUnknown, known?, hvalue, htakes, eq_comm, and_comm]
    | not =>
      have htakes : T.isBoolean = true ↔ UnaryOp.not.Takes T :=
        (Ty.isBoolean_iff ha).trans ⟨fun h => h ▸ .not, fun h => by cases h with | not => rfl⟩
      simp [unary?, isUnknown, known?, hvalue, htakes, eq_comm, and_comm]

end ExprTy

/-! ## Array literals -/

/-- The elements of an array literal share a type: one of them has it, and each has it or is the
null value, if that belongs to the type. -/
def Ty.SharedBy (T : Ty) (types : List ExprTy) : Prop :=
  .known T ∈ types ∧ ∀ τ ∈ types, τ = .known T ∨ τ = .nil ∧ T.Nullable

/-- Elements share at most one type. -/
theorem Ty.SharedBy.unique {T T' : Ty} {types : List ExprTy} (h : T.SharedBy types)
    (h' : T'.SharedBy types) : T = T' := by
  rcases h'.2 _ h.1 with heq | ⟨heq, -⟩
  · exact ExprTy.known.inj heq
  · cases heq

end ClassCheck
