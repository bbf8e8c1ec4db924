import ClassCheck.Proofs.TypeRules
import ClassCheck.Scope

/-!
# The typing of expressions

Which type an expression has, as a relation between the classes that can be named, the place of
the expression in a member, the local names around it, the expression and its type. A name
stands for the innermost local name, else for the nearest attribute of the class, else for a
class; the built-in class of input and output is a local name of the outermost frame. There is
no rule for what is not known, so an expression with a violation in it has no type.
-/

namespace ClassCheck

/-- A local name, whether or not a value has been stored under it. -/
structure Local where
  /-- The name. -/
  name : String
  /-- What it is bound to. -/
  kind : BindingKind
  /-- Its type. -/
  type : Ty
  deriving DecidableEq, Repr

/-- The local names by frame, the innermost frame first. -/
abbrev Env := List (List Local)

/-- The innermost local name. -/
def Env.lookup? (Γ : Env) (name : String) : Option Local :=
  Γ.findSome? fun frame => frame.find? (·.name = name)

/-- What is fixed while a member is read. -/
structure Setting where
  /-- The classes that can be named. -/
  classes : Classes
  /-- The class that the member belongs to. -/
  className : String
  /-- Whether the member belongs to the class itself. -/
  isStatic : Bool
  /-- Whether the member is a constructor. -/
  inCtor : Bool
  /-- The type of the member's result; none if it has no result. -/
  result : Option Ty

/-- The nearest attribute of a class under a name, with the class that declares it. -/
def Classes.HasAttribute (K : Classes) (c name owner : String) (info : AttributeInfo) : Prop :=
  K.Nearest (·.attributes name) c owner info

/-- The nearest method of a class under a name, with the class that declares it. -/
def Classes.HasMethod (K : Classes) (c name owner : String) (signature : Signature) : Prop :=
  K.Nearest (·.methods name) c owner signature

/-- What stands before a dot: a class by its name, or an object of a class. -/
inductive ExprTy.Denotes : ExprTy → String → Bool → Prop
  | ofClass {c : String} : Denotes (.classRef c) c true
  | ofObject {c : String} : Denotes (.known (.object c)) c false

/-- What a call yields: a value, or nothing. -/
def Signature.yields (s : Signature) : ExprTy :=
  match s.result with
  | some T => .value T
  | none => .void

/-- The parameters that an object of the class is made with. -/
def ClassView.ctorParams (v : ClassView) : List (String × Ty) :=
  (v.ctor.map Signature.params).getD []

mutual

/-- An expression has a type. -/
inductive HasType (S : Setting) (Γ : Env) : Expr → ExprTy → Prop
  | int {value : Int} {span : Span} : HasType S Γ (.int value span) (.known .int)
  | float {value : Number.Binary64} {span : Span} : HasType S Γ (.float value span) (.known .float)
  | bool {value : Bool} {span : Span} : HasType S Γ (.bool value span) (.known .boolean)
  | string {value : String} {span : Span} : HasType S Γ (.string value span) (.known .string)
  | nil {span : Span} : HasType S Γ (.nil span) .nil
  /-- Only instance members have a running object. -/
  | self {span : Span} : S.isStatic = false →
      HasType S Γ (.self span) (.known (.object S.className))
  | localName {name : String} {span : Span} {l : Local} : Γ.lookup? name = some l →
      l.kind ≠ .facility → HasType S Γ (.ident name span) (.value l.type)
  | facility {name : String} {span : Span} {l : Local} : Γ.lookup? name = some l →
      l.kind = .facility → HasType S Γ (.ident name span) (.classRef ioClass)
  | attributeName {name owner : String} {span : Span} {info : AttributeInfo} :
      Γ.lookup? name = none → S.classes.HasAttribute S.className name owner info →
      HasType S Γ (.ident name span) (.value info.type)
  | className {name : String} {span : Span} : Γ.lookup? name = none →
      (¬ ∃ owner info, S.classes.HasAttribute S.className name owner info) →
      (S.classes name).isSome = true → HasType S Γ (.ident name span) (.classRef name)
  | paren {inner : Expr} {span : Span} {τ : ExprTy} : HasType S Γ inner τ →
      HasType S Γ (.paren inner span) τ
  | binary {op : BinaryOp} {left right : Expr} {span : Span} {a b : ExprTy} {T : Ty} :
      HasType S Γ left a → HasType S Γ right b → op.Takes a b T →
      HasType S Γ (.binary op left right span) (.known T)
  | unary {op : UnaryOp} {operand : Expr} {span : Span} {T : Ty} :
      HasType S Γ operand (.known T) → op.Takes T →
      HasType S Γ (.unary op operand span) (.known T)
  | index {object position : Expr} {span : Span} {element : Ty} {size : Nat} :
      HasType S Γ object (.known (.array element size)) → HasType S Γ position (.known .int) →
      HasType S Γ (.index object position span) (.value element)
  /-- Static members are reached through a class and all others through an object. -/
  | field {object : Expr} {name : String} {span : Span} {τ : ExprTy} {c owner : String}
      {viaClass : Bool} {info : AttributeInfo} : HasType S Γ object τ → τ.Denotes c viaClass →
      S.classes.HasAttribute c name owner info → info.isStatic = viaClass →
      HasType S Γ (.field object name span) (.value info.type)
  | call {receiver : Expr} {method : String} {args : List Expr} {span : Span} {τ : ExprTy}
      {types : List ExprTy} {c owner : String} {viaClass : Bool} {signature : Signature} :
      HasType S Γ receiver τ → τ.Denotes c viaClass →
      S.classes.HasMethod c method owner signature → signature.isStatic = viaClass →
      HaveTypes S Γ args types → S.classes.FitAll signature.params types →
      HasType S Γ (.call receiver method args span) signature.yields
  | create {c : String} {args : List Expr} {span : Span} {types : List ExprTy} {v : ClassView} :
      S.classes c = some v → HaveTypes S Γ args types → S.classes.FitAll v.ctorParams types →
      HasType S Γ (.create c args span) (.known (.object c))
  | array {elements : List Expr} {span : Span} {types : List ExprTy} {T : Ty} :
      HaveTypes S Γ elements types → T.SharedBy types →
      HasType S Γ (.array elements span) (.known (.array T elements.length))

/-- Expressions have types one by one, and each of them is a value. -/
inductive HaveTypes (S : Setting) (Γ : Env) : List Expr → List ExprTy → Prop
  | nil : HaveTypes S Γ [] []
  | cons {e : Expr} {es : List Expr} {τ : ExprTy} {τs : List ExprTy} : HasType S Γ e τ →
      τ ≠ .void → HaveTypes S Γ es τs → HaveTypes S Γ (e :: es) (τ :: τs)

end

section

variable {S : Setting} {Γ : Env}

/-! ## The types that expressions have -/

private theorem Signature.isPlain_yields (s : Signature) : s.yields.IsPlain := by
  unfold Signature.yields
  cases s.result with
  | some T => exact ExprTy.isPlain_value T
  | none => trivial

/-- An expression never has a reference type. -/
theorem HasType.isPlain {e : Expr} {τ : ExprTy} : HasType S Γ e τ → τ.IsPlain
  | .int | .float | .bool | .string | .nil | .self _ | .facility _ _ | .className _ _ _
  | .create _ _ _ | .array _ _ => by trivial
  | .localName _ _ | .attributeName _ _ | .index _ _ | .field _ _ _ _ => ExprTy.isPlain_value _
  | .call _ _ _ _ _ _ => Signature.isPlain_yields _
  | .paren h => h.isPlain
  | .binary _ _ h => by cases h <;> rfl
  | .unary h _ => h.isPlain

private theorem Signature.yields_ne_unknown (s : Signature) : s.yields ≠ .unknown := by
  unfold Signature.yields
  cases s.result <;> simp [ExprTy.value]

/-- An expression that has a type has a known one. -/
theorem HasType.ne_unknown {e : Expr} {τ : ExprTy} : HasType S Γ e τ → τ ≠ .unknown
  | .int | .float | .bool | .string | .nil | .self _ | .facility _ _ | .className _ _ _
  | .create _ _ _ | .array _ _ | .localName _ _ | .attributeName _ _ | .index _ _
  | .field _ _ _ _ | .binary _ _ _ | .unary _ _ => by simp [ExprTy.value]
  | .call _ _ _ _ _ _ => Signature.yields_ne_unknown _
  | .paren h => h.ne_unknown

/-- What denotes a class is not void. -/
theorem ExprTy.Denotes.ne_void {τ : ExprTy} {c : String} {viaClass : Bool}
    (h : τ.Denotes c viaClass) : τ ≠ .void := by
  cases h <;> simp

/-- No operator takes a left operand without a value. -/
theorem BinaryOp.Takes.left_ne_void {op : BinaryOp} {a b : ExprTy} {T : Ty}
    (h : op.Takes a b T) : a ≠ .void := by
  cases h with
  | equality _ h => cases h <;> simp
  | _ => simp

/-- Nor a right one. -/
theorem BinaryOp.Takes.right_ne_void {op : BinaryOp} {a b : ExprTy} {T : Ty}
    (h : op.Takes a b T) : b ≠ .void := by
  cases h with
  | equality _ h => cases h <;> simp
  | _ => simp

section

variable {es : List Expr} {τs : List ExprTy}

/-- The types of arguments are no references. -/
theorem HaveTypes.isPlain (h : HaveTypes S Γ es τs) : ∀ τ ∈ τs, τ.IsPlain := by
  induction es generalizing τs with
  | nil => cases h; simp
  | cons e es ih =>
    cases h with | cons h _ hs =>
    exact List.forall_mem_cons.mpr ⟨h.isPlain, ih hs⟩

/-- The types of arguments are known. -/
theorem HaveTypes.ne_unknown (h : HaveTypes S Γ es τs) : ∀ τ ∈ τs, τ ≠ .unknown := by
  induction es generalizing τs with
  | nil => cases h; simp
  | cons e es ih =>
    cases h with | cons h _ hs =>
    exact List.forall_mem_cons.mpr ⟨h.ne_unknown, ih hs⟩

/-- There are as many types as arguments. -/
theorem HaveTypes.length_eq (h : HaveTypes S Γ es τs) : τs.length = es.length := by
  induction es generalizing τs with
  | nil => cases h; rfl
  | cons e es ih =>
    cases h with | cons _ _ hs =>
    rw [List.length_cons, List.length_cons, ih hs]

end

/-! ## One type at most -/

/-- A type denotes one class at most, and in one way. -/
theorem ExprTy.Denotes.unique {τ : ExprTy} {c c' : String} {b b' : Bool} (h : τ.Denotes c b)
    (h' : τ.Denotes c' b') : c = c' ∧ b = b' := by
  cases h <;> cases h' <;> exact ⟨rfl, rfl⟩

/-- A name stands for one thing: the rules for names exclude each other. -/
theorem HasType.ident_unique {name : String} {span : Span} {τ τ' : ExprTy}
    (h : HasType S Γ (.ident name span) τ) (h' : HasType S Γ (.ident name span) τ') : τ = τ' := by
  cases h with
  | localName hl hk => cases h' <;> simp_all
  | facility hl hk => cases h' <;> simp_all
  | attributeName hl ha =>
    cases h' with
    | localName hl' _ => simp [hl] at hl'
    | facility hl' _ => simp [hl] at hl'
    | attributeName _ ha' => rw [(ha.unique ha').2]
    | className _ hno _ => exact absurd ⟨_, _, ha⟩ hno
  | className hl hno _ =>
    cases h' with
    | localName hl' _ => simp [hl] at hl'
    | facility hl' _ => simp [hl] at hl'
    | attributeName _ ha' => exact absurd ⟨_, _, ha'⟩ hno
    | className _ _ _ => rfl

mutual

/-- An expression has at most one type. -/
theorem HasType.unique (e : Expr) {τ τ' : ExprTy} (h : HasType S Γ e τ)
    (h' : HasType S Γ e τ') : τ = τ' := by
  cases e with
  | int value span => cases h; cases h'; rfl
  | float value span => cases h; cases h'; rfl
  | bool value span => cases h; cases h'; rfl
  | string value span => cases h; cases h'; rfl
  | nil span => cases h; cases h'; rfl
  | self span => cases h; cases h'; rfl
  | ident name span => exact h.ident_unique h'
  | paren inner span =>
    cases h with | paren h =>
    cases h' with | paren h' =>
    exact HasType.unique inner h h'
  | binary op left right span =>
    cases h with | binary hl hr ht =>
    cases h' with | binary hl' hr' ht' =>
    obtain rfl := HasType.unique left hl hl'
    obtain rfl := HasType.unique right hr hr'
    have hT := ExprTy.binary?_of_takes hl.isPlain hr.isPlain ht
    rw [ExprTy.binary?_of_takes hl.isPlain hr.isPlain ht'] at hT
    exact (Option.some.inj hT).symm
  | unary op operand span =>
    cases h with | unary h _ =>
    cases h' with | unary h' _ =>
    exact HasType.unique operand h h'
  | index object position span =>
    cases h with | index h _ =>
    cases h' with | index h' _ =>
    cases HasType.unique object h h'
    rfl
  | field object name span =>
    cases h with | field h hd ha _ =>
    cases h' with | field h' hd' ha' _ =>
    obtain rfl := HasType.unique object h h'
    obtain ⟨rfl, -⟩ := hd.unique hd'
    rw [(ha.unique ha').2]
  | call receiver method args span =>
    cases h with | call h hd hm _ _ _ =>
    cases h' with | call h' hd' hm' _ _ _ =>
    obtain rfl := HasType.unique receiver h h'
    obtain ⟨rfl, -⟩ := hd.unique hd'
    rw [(hm.unique hm').2]
  | create c args span => cases h; cases h'; rfl
  | array elements span =>
    cases h with | array h hs =>
    cases h' with | array h' hs' =>
    obtain rfl := HaveTypes.unique elements h h'
    rw [hs.unique hs']

/-- Expressions have at most one list of types. -/
theorem HaveTypes.unique (es : List Expr) {τs τs' : List ExprTy} (h : HaveTypes S Γ es τs)
    (h' : HaveTypes S Γ es τs') : τs = τs' := by
  cases es with
  | nil => cases h; cases h'; rfl
  | cons e es =>
    cases h with | cons h _ hs =>
    cases h' with | cons h' _ hs' =>
    rw [HasType.unique e h h', HaveTypes.unique es hs hs']

end

end

end ClassCheck
