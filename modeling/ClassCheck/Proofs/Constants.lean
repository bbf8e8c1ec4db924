import ClassCheck.Proofs.StmtStatics

/-!
# Constant expressions mean the same everywhere

A constant expression has no name in it and no access to an object, so its check asks neither the
class table nor the local names: everywhere it gets the same type and breaks the same rules. The
type can only be one that literals, operators and array literals make, and these make no class and
no reference. What keeps an expression from being constant is read off its leaves from left to
right.
-/

namespace ClassCheck

/-! ## Leaves -/

namespace Expr

/-- Whether an expression is a literal other than the null value. -/
def isLiteral : Expr → Bool
  | .int .. | .float .. | .bool .. | .string .. => true
  | _ => false

mutual

/-- What is reached from an expression through operators, parentheses and array literals, from
left to right. -/
def leaves : Expr → List Expr
  | .binary _ left right _ => left.leaves ++ right.leaves
  | .unary _ operand _ => operand.leaves
  | .paren inner _ => inner.leaves
  | .array elements _ => leavesOf elements
  | e => [e]

/-- What is reached from several expressions. -/
def leavesOf : List Expr → List Expr
  | [] => []
  | e :: es => e.leaves ++ leavesOf es

end

mutual

/-- What keeps an expression from being constant is the first leaf that is no literal. -/
theorem firstNonConstant?_eq_find? (e : Expr) :
    e.firstNonConstant? = e.leaves.find? (!·.isLiteral) := by
  cases e with
  | binary op left right span =>
    rw [firstNonConstant?, leaves, List.find?_append, left.firstNonConstant?_eq_find?,
      right.firstNonConstant?_eq_find?]
  | unary op operand span =>
    rw [firstNonConstant?, leaves, operand.firstNonConstant?_eq_find?]
  | paren inner span => rw [firstNonConstant?, leaves, inner.firstNonConstant?_eq_find?]
  | array elements span =>
    rw [firstNonConstant?, leaves, firstNonConstantOf?_eq_find? elements]
  | _ => simp [firstNonConstant?, leaves, isLiteral]

private theorem firstNonConstantOf?_eq_find? (es : List Expr) :
    firstNonConstantOf? es = (leavesOf es).find? (!·.isLiteral) := by
  cases es with
  | nil => simp [firstNonConstantOf?, leavesOf]
  | cons e es =>
    rw [firstNonConstantOf?, leavesOf, List.find?_append, e.firstNonConstant?_eq_find?,
      firstNonConstantOf?_eq_find? es]

end

private theorem constant_of_isConstant {e : Expr} (h : e.isConstant = true) : e.Constant :=
  e.firstNonConstant?_eq_none_iff.mp (Option.isNone_iff_eq_none.mp h)

end Expr

/-! ## Types of constants -/

/-- The primitive types and the arrays of them, in any number of dimensions. -/
def Ty.isElementary : Ty → Bool
  | .primitive _ => true
  | .array element _ => element.isElementary
  | .object _ | .reference _ => false

/-- A value of a type that is made from primitive types, or not known. -/
inductive ExprTy.Elementary : ExprTy → Prop
  | unknown : Elementary .unknown
  | known {T : Ty} : T.isElementary = true → Elementary (.known T)

namespace ExprTy

/-- Operations are elementary, whatever their operands are. -/
theorem elementary_binary? (op : BinaryOp) (a b : ExprTy) :
    ((binary? op a b).getD .unknown).Elementary := by
  have hprimitive : ∀ type, (known (.primitive type)).Elementary := fun _ => .known rfl
  unfold binary?
  split
  · exact .unknown
  · split
    · split
      · exact hprimitive _
      · exact .unknown
    · split
      · rename_i T U _ _
        cases hop : operated op T U with
        | none => exact .unknown
        | some V =>
          -- No operator but the tests for equality yields anything else than a primitive type.
          unfold operated at hop
          split_ifs at hop <;> cases hop <;> exact hprimitive _
      · exact .unknown

private theorem elementary_value {T : Ty} {type : Primitive} (h : T.decayed = .primitive type) :
    (value T).Elementary := by
  rw [value, h]
  exact .known rfl

private theorem elementary_unary? (op : UnaryOp) (a : ExprTy) :
    ((unary? op a).getD .unknown).Elementary := by
  have hnumeric : ∀ T : Ty, T.isNumeric = true → (value T).Elementary := by
    intro T h
    simp only [Ty.isNumeric, Bool.or_eq_true, decide_eq_true_eq] at h
    exact h.elim elementary_value elementary_value
  have hboolean : ∀ T : Ty, T.isBoolean = true → (value T).Elementary := by
    intro T h
    exact elementary_value (of_decide_eq_true h)
  unfold unary?
  split
  · exact .unknown
  · split
    · exact .unknown
    · cases op <;> dsimp only <;> split_ifs with htakes
      · exact hnumeric _ htakes
      · exact .unknown
      · exact hnumeric _ htakes
      · exact .unknown
      · exact hboolean _ htakes
      · exact .unknown

end ExprTy

namespace Context

open Checked

private theorem elementary_demandValue {e : Expr} {c : Checked ExprTy} (h : c.value.Elementary) :
    (demandValue e c).value.Elementary := by
  rw [demandValue_value]
  split
  · exact .unknown
  · exact h

/-- An array of elementary values is elementary. -/
theorem elementary_arrayResult {e : Expr} {types : List ExprTy}
    (h : ∀ τ ∈ types, τ.Elementary) : (arrayResult e types).value.Elementary := by
  unfold arrayResult
  split
  · exact .unknown
  · split
    · rename_i T hT
      cases h _ (mem_of_elementType? hT) with
      | known hT => exact .known hT
    · exact .unknown

/-- The types of values are those of the expressions, one by one. -/
theorem valueTypes_value (ctx : Context) (scope : Scope) (es : List Expr) :
    (ctx.valueTypes scope es).value = es.map fun e => (ctx.valueType scope e).value := by
  induction es with
  | nil => rw [valueTypes]; rfl
  | cons e es ih =>
    rw [valueTypes, bind_value, bind_value, ih]
    rfl

/-- Literals, operators and array literals make no class and no reference. -/
theorem elementary_exprType (ctx : Context) (scope : Scope) {e : Expr} (h : e.Constant) :
    (ctx.exprType scope e).value.Elementary := by
  induction h with
  | int | float | bool | string =>
    rw [exprType]
    exact .known rfl
  | binary _ _ _ _ =>
    simp only [exprType, bind_value, orMismatch_value]
    exact ExprTy.elementary_binary? _ _ _
  | unary _ _ =>
    simp only [exprType, bind_value, orMismatch_value]
    exact ExprTy.elementary_unary? _ _
  | paren _ ih =>
    rw [exprType]
    exact ih
  | array _ ih =>
    simp only [exprType, bind_value]
    refine elementary_arrayResult fun τ hτ => ?_
    rw [valueTypes_value] at hτ
    obtain ⟨e, he, rfl⟩ := List.mem_map.mp hτ
    exact elementary_demandValue (ih e he)

/-! ## Independence of the surroundings -/

/-- Values are checked alike if the expressions are. -/
theorem valueTypes_congr {ctx ctx' : Context} {scope scope' : Scope} {es : List Expr}
    (h : ∀ e ∈ es, ctx.exprType scope e = ctx'.exprType scope' e) :
    ctx.valueTypes scope es = ctx'.valueTypes scope' es := by
  induction es with
  | nil => rw [valueTypes, valueTypes]
  | cons e es ih =>
    rw [List.forall_mem_cons] at h
    rw [valueTypes, valueTypes, h.1, ih h.2]

/-- No rule for a constant expression looks at the context or at the local names. -/
theorem exprType_of_constant (ctx ctx' : Context) (scope scope' : Scope) {e : Expr}
    (h : e.Constant) : ctx.exprType scope e = ctx'.exprType scope' e := by
  induction h with
  | int | float | bool | string => rw [exprType, exprType]
  | binary _ _ ihleft ihright => rw [exprType, exprType, ihleft, ihright]
  | unary _ ih => rw [exprType, exprType, ih]
  | paren _ ih => rw [exprType, exprType, ih]
  | array _ ih => rw [exprType, exprType, valueTypes_congr ih]

end Context

/-- A constant expression gets the same type and the same violations in all contexts and scopes,
and the type is made from primitive types or not known. An expression is constant exactly if all
its leaves are literals other than the null value, and otherwise the first leaf that is none is
what keeps it from being constant. -/
theorem Expr.constants_context_free (e : Expr) :
    (e.isConstant = true →
      (∀ (ctx ctx' : Context) (scope scope' : Scope),
        ctx.exprType scope e = ctx'.exprType scope' e) ∧
      ∀ (ctx : Context) (scope : Scope), (ctx.exprType scope e).value.Elementary) ∧
    (e.firstNonConstant? = none ↔ ∀ leaf ∈ e.leaves, leaf.isLiteral = true) ∧
    ∀ offender, e.firstNonConstant? = some offender ↔
      ∃ before after, e.leaves = before ++ offender :: after ∧
        (∀ leaf ∈ before, leaf.isLiteral = true) ∧ offender.isLiteral = false := by
  refine ⟨?_, ?_, ?_⟩
  · intro h
    have hconstant := constant_of_isConstant h
    exact ⟨fun ctx ctx' scope scope' => ctx.exprType_of_constant ctx' scope scope' hconstant,
      fun ctx scope => ctx.elementary_exprType scope hconstant⟩
  · rw [firstNonConstant?_eq_find?, List.find?_eq_none]
    simp
  · intro offender
    rw [firstNonConstant?_eq_find?, List.find?_eq_some_iff_append]
    constructor
    · rintro ⟨hoffender, before, after, hleaves, hbefore⟩
      exact ⟨before, after, hleaves, by simpa using hbefore, by simpa using hoffender⟩
    · rintro ⟨before, after, hleaves, hbefore, hoffender⟩
      exact ⟨by simpa using hoffender, before, after, hleaves, by simpa using hbefore⟩

/-- A truth value with a minus sign in front of it. -/
def signedTruth : Expr := .unary .neg (.paren (.bool true ⟨10, 14⟩) ⟨9, 15⟩) ⟨8, 15⟩

/-- An array of a sum and of that value. -/
def oddPair : Expr :=
  .array [.binary .add (.int 1 ⟨1, 2⟩) (.int 2 ⟨5, 6⟩) ⟨1, 6⟩, signedTruth] ⟨0, 16⟩

/-- The array is constant, and whatever is around it, it has the one violation of its sign. -/
theorem oddPair_context_free :
    let here := Context.ofClass .untilSettled ⟨[], false⟩ "Here"
    let there : Context :=
      ⟨.exhaustive, ⟨[ClassTable.ioEntry], true⟩, "There", true, true, some .int⟩
    oddPair.isConstant = true ∧
      here.exprType .empty oddPair = there.exprType .global oddPair ∧
      Event.violations (there.exprType .global oddPair).events =
        [signedTruth.breaks .mismatchInExpression] ∧
      (there.exprType .global oddPair).value.Elementary := by
  intro here there
  have hconstant : oddPair.isConstant = true := rfl
  obtain ⟨hsame, helementary⟩ := (Expr.constants_context_free oddPair).1 hconstant
  exact ⟨hconstant, hsame here there .empty .global, by decide +kernel, helementary there .global⟩

end ClassCheck
