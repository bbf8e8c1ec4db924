import ClassCheck.Proofs.Typing

/-!
# The static semantics

Which programs are well formed, said of the syntax alone. A program declares the classes that
its types may name; the statements of a member are read in order, with the local names by frame
and the final attributes that a constructor has given a value so far. Nothing is said here about
how a check proceeds or what it reports.
-/

namespace ClassCheck

/-! ## Expressions in declarations -/

/-- Literals other than the null value, and what operators, parentheses and array literals make
of them. -/
inductive Expr.Constant : Expr → Prop
  | int {value : Int} {span : Span} : Constant (.int value span)
  | float {value : Number.Binary64} {span : Span} : Constant (.float value span)
  | bool {value : Bool} {span : Span} : Constant (.bool value span)
  | string {value : String} {span : Span} : Constant (.string value span)
  | binary {op : BinaryOp} {left right : Expr} {span : Span} : Constant left → Constant right →
      Constant (.binary op left right span)
  | unary {op : UnaryOp} {operand : Expr} {span : Span} : Constant operand →
      Constant (.unary op operand span)
  | paren {inner : Expr} {span : Span} : Constant inner → Constant (.paren inner span)
  | array {elements : List Expr} {span : Span} : (∀ e ∈ elements, Constant e) →
      Constant (.array elements span)

/-- The class that a written type names, if any, can be named. -/
def Classes.Knows (K : Classes) (type : WrittenType) : Prop :=
  ∀ id, type.className? = some id → (K id.name).isSome = true

/-- An initial value fits the declared type, and that of a constant is constant. -/
def Initializes (S : Setting) (Γ : Env) (isFinal : Bool) (declared : Ty) (init : Expr) : Prop :=
  (∃ τ, HasType S Γ init τ ∧ S.classes.Fits declared τ) ∧ (isFinal = true → init.Constant)

/-- Local names are declared one by one in the innermost frame, where each is new; an initial
value does not see its own name. -/
inductive Declares (S : Setting) (isFinal : Bool) (T : Ty) : Env → List Declarator → Env → Prop
  | nil {Γ : Env} : Declares S isFinal T Γ [] Γ
  | cons {frame : List Local} {Γ Γ' : Env} {d : Declarator} {ds : List Declarator} :
      (∀ l ∈ frame, l.name ≠ d.name) →
      (∀ init, d.init = some init → Initializes S (frame :: Γ) isFinal T init) →
      Declares S isFinal T
        ((frame ++ [⟨d.name, if isFinal then .constant else .variable, T⟩]) :: Γ) ds Γ' →
      Declares S isFinal T (frame :: Γ) (d :: ds) Γ'

/-! ## Places -/

/-- Variables can be written, and parameters that are references. -/
def Local.IsWritable (l : Local) : Prop :=
  l.kind = .variable ∨ l.kind = .parameter ∧ ∃ T, l.type = .reference T

/-- A place takes values of a type. Of the final attributes only those without an initial value
can be written: by a constructor of the class that declares them, through the running object and
once. `A` lists the final attributes written before, and the last argument those after. -/
inductive Writes (S : Setting) (Γ : Env) (A : List String) : Expr → Ty → List String → Prop
  | localName {name : String} {span : Span} {l : Local} : Γ.lookup? name = some l →
      l.IsWritable → Writes S Γ A (.ident name span) l.type.decayed A
  | attributeName {name owner : String} {span : Span} {info : AttributeInfo} :
      Γ.lookup? name = none → S.classes.HasAttribute S.className name owner info →
      info.isFinal = false → Writes S Γ A (.ident name span) info.type.decayed A
  | field {object : Expr} {name c owner : String} {span : Span} {τ : ExprTy}
      {info : AttributeInfo} : HasType S Γ object τ → τ.Denotes c info.isStatic →
      S.classes.HasAttribute c name owner info → info.isFinal = false →
      Writes S Γ A (.field object name span) info.type.decayed A
  | firstValue {object : Expr} {name c : String} {span selfSpan : Span} {τ : ExprTy}
      {info : AttributeInfo} : HasType S Γ object τ → τ.Denotes c info.isStatic →
      S.classes.HasAttribute c name S.className info → info.isFinal = true →
      S.inCtor = true → object.bare = .self selfSpan → info.hasInit = false → name ∉ A →
      Writes S Γ A (.field object name span) info.type.decayed (name :: A)
  | element {object position : Expr} {span : Span} {T : Ty} :
      HasType S Γ (.index object position span) (.known T) →
      Writes S Γ A (.index object position span) T A

/-- A loop counts with a whole number that can be written, or with a new one of its own if there
is no local name and no attribute to count with. `frame` holds what the loop declares. -/
inductive Counts (S : Setting) (Γ : Env) (name : String) : List Local → Prop
  | localName {l : Local} : Γ.lookup? name = some l → l.IsWritable → l.type.decayed = .int →
      Counts S Γ name []
  | attributeName {owner : String} {info : AttributeInfo} : Γ.lookup? name = none →
      S.classes.HasAttribute S.className name owner info → info.isFinal = false →
      info.type.decayed = .int → Counts S Γ name []
  | fresh : Γ.lookup? name = none →
      (¬ ∃ owner info, S.classes.HasAttribute S.className name owner info) →
      Counts S Γ name [⟨name, .variable, .int⟩]

/-! ## Statements -/

mutual

/-- A statement is well formed where `inLoop` says whether a loop of the member is around it. The
names and the final attributes written are those before it and those after it. -/
inductive StmtOk (S : Setting) :
    Bool → Env → List String → Stmt → Env → List String → Prop
  | declare {inLoop : Bool} {Γ Γ' : Env} {A : List String} {isFinal : Bool} {type : WrittenType}
      {ds : List Declarator} {span : Span} : S.classes.Knows type →
      Declares S isFinal (.ofWritten type) Γ ds Γ' →
      StmtOk S inLoop Γ A (.declare isFinal type ds span) Γ' A
  | assign {inLoop : Bool} {Γ : Env} {A A' : List String} {place value : Expr} {span : Span}
      {τ : ExprTy} {T : Ty} : HasType S Γ value τ → Writes S Γ A place T A' →
      S.classes.Fits T τ → StmtOk S inLoop Γ A (.assign place value span) Γ A'
  | ifThen {inLoop : Bool} {Γ Γ' : Env} {A A' : List String} {cond : Expr} {thenBranch : Stmt}
      {span : Span} : HasType S Γ cond (.known .boolean) →
      StmtOk S inLoop ([] :: Γ) A thenBranch Γ' A' →
      StmtOk S inLoop Γ A (.ifThen cond thenBranch span) Γ A'
  | ifElse {inLoop : Bool} {Γ Γ₁ Γ₂ : Env} {A A₁ A₂ : List String} {cond : Expr}
      {thenBranch elseBranch : Stmt} {span : Span} : HasType S Γ cond (.known .boolean) →
      StmtOk S inLoop ([] :: Γ) A thenBranch Γ₁ A₁ →
      StmtOk S inLoop ([] :: Γ) A₁ elseBranch Γ₂ A₂ →
      StmtOk S inLoop Γ A (.ifElse cond thenBranch elseBranch span) Γ A₂
  /-- The counter is a name in the bounds and in the body. -/
  | loop {inLoop : Bool} {Γ Γ' : Env} {A A' : List String} {id : Ident} {first last : Expr}
      {direction : Direction} {body : Stmt} {span : Span} {frame : List Local} :
      Counts S Γ id.name frame → HasType S (frame :: Γ) first (.known .int) →
      HasType S (frame :: Γ) last (.known .int) →
      StmtOk S true ([] :: frame :: Γ) A body Γ' A' →
      StmtOk S inLoop Γ A (.loop id first last direction body span) Γ A'
  | breakLoop {Γ : Env} {A : List String} {span : Span} : StmtOk S true Γ A (.breakLoop span) Γ A
  | continueLoop {Γ : Env} {A : List String} {span : Span} :
      StmtOk S true Γ A (.continueLoop span) Γ A
  | returnNothing {inLoop : Bool} {Γ : Env} {A : List String} {span : Span} : S.result = none →
      StmtOk S inLoop Γ A (.returnValue none span) Γ A
  | returnValue {inLoop : Bool} {Γ : Env} {A : List String} {e : Expr} {span : Span} {T : Ty}
      {τ : ExprTy} : S.result = some T → HasType S Γ e τ → S.classes.Fits T τ →
      StmtOk S inLoop Γ A (.returnValue (some e) span) Γ A
  | call {inLoop : Bool} {Γ : Env} {A : List String} {invocation : Expr} {span : Span}
      {τ : ExprTy} : HasType S Γ invocation τ → StmtOk S inLoop Γ A (.call invocation span) Γ A
  | block {inLoop : Bool} {Γ Γ' : Env} {A A' : List String} {stmts : List Stmt} {span : Span} :
      StmtsOk S inLoop ([] :: Γ) A stmts Γ' A' →
      StmtOk S inLoop Γ A (.block stmts span) Γ A'

/-- Statements are well formed one after another. -/
inductive StmtsOk (S : Setting) :
    Bool → Env → List String → List Stmt → Env → List String → Prop
  | nil {inLoop : Bool} {Γ : Env} {A : List String} : StmtsOk S inLoop Γ A [] Γ A
  | cons {inLoop : Bool} {Γ Γ₁ Γ₂ : Env} {A A₁ A₂ : List String} {s : Stmt} {ss : List Stmt} :
      StmtOk S inLoop Γ A s Γ₁ A₁ → StmtsOk S inLoop Γ₁ A₁ ss Γ₂ A₂ →
      StmtsOk S inLoop Γ A (s :: ss) Γ₂ A₂

end

/-! ## Members -/

/-- The names around every member: input and output. -/
def globalEnv : Env := [[⟨ioName, .facility, .object ioClass⟩]]

/-- A parameter as a local name. -/
def Param.toLocal (param : Param) : Local := ⟨param.name, .parameter, .ofWritten param.type⟩

/-- The parameters and the body of a member are well formed; they share a frame. -/
structure BodyOk (S : Setting) (params : List Param) (body : Block) : Prop where
  /-- The classes named in the types of the parameters can be named. -/
  types : ∀ param ∈ params, S.classes.Knows param.type
  /-- The parameters have distinct names. -/
  distinct : (params.map (·.name)).Nodup
  /-- The statements are well formed, outside of any loop at first. -/
  stmts : ∃ Γ A, StmtsOk S false (params.map Param.toLocal :: globalEnv) [] body.stmts Γ A

/-- A member of a class is well formed. -/
inductive MemberOk (K : Classes) (c : String) : Member → Prop
  | ofAttribute {decl : AttributeDecl} {span : Span} : K.Knows decl.type →
      (∀ d ∈ decl.declarators, ∀ init, d.init = some init →
        Initializes ⟨K, c, decl.isStatic, false, none⟩ globalEnv decl.isFinal
          (.ofWritten decl.type) init) →
      MemberOk K c (.attribute decl span)
  | ofMethod {decl : MethodDecl} {span : Span} : (∀ type, decl.result = some type → K.Knows type) →
      BodyOk ⟨K, c, decl.isStatic, false, decl.result.map .ofWritten⟩ decl.params decl.body →
      MemberOk K c (.method decl span)
  | ofCtor {decl : CtorDecl} {span : Span} : decl.name = c →
      BodyOk ⟨K, c, false, true, none⟩ decl.params decl.body → MemberOk K c (.ctor decl span)
  | ofDtor {decl : DtorDecl} {span : Span} : decl.name = c →
      BodyOk ⟨K, c, false, false, none⟩ [] decl.body → MemberOk K c (.dtor decl span)

/-! ## Programs -/

/-- The attribute that a member under a name is. -/
def ValueMember.attribute? : ValueMember → Option AttributeInfo
  | .attribute info => some info
  | .method _ => none

/-- The method that a member under a name is. -/
def ValueMember.method? : ValueMember → Option Signature
  | .attribute _ => none
  | .method signature => some signature

/-- What a declared name stands for. -/
inductive Content where
  /-- An attribute or a method. -/
  | value (member : ValueMember)
  /-- A constructor. -/
  | ctor (signature : Signature)
  /-- A destructor. -/
  | dtor
  deriving DecidableEq, Repr

/-- A name that a class declares. -/
structure Declaration where
  /-- The name. -/
  name : String
  /-- What it stands for. -/
  content : Content
  deriving DecidableEq, Repr

namespace Declaration

/-- The attribute or method declared, if it is declared under a name. -/
def value? (name : String) (d : Declaration) : Option ValueMember :=
  match d.content with
  | .value member => if d.name = name then some member else none
  | _ => none

/-- The constructor declared, if it is declared under a name. -/
def ctor? (name : String) (d : Declaration) : Option Signature :=
  match d.content with
  | .ctor signature => if d.name = name then some signature else none
  | _ => none

/-- A declaration gives a name a value just if it declares that name and an attribute or method. -/
theorem value?_eq_some {name : String} {d : Declaration} {member : ValueMember} :
    d.value? name = some member ↔ d.name = name ∧ d.content = .value member := by
  unfold value?
  cases d.content <;> simp

/-- The same for a constructor. -/
theorem ctor?_eq_some {name : String} {d : Declaration} {signature : Signature} :
    d.ctor? name = some signature ↔ d.name = name ∧ d.content = .ctor signature := by
  unfold ctor?
  cases d.content <;> simp

/-- Two declarations of one class get along: under different names, or as a constructor and a
destructor. -/
def Coexist (d d' : Declaration) : Prop :=
  d.name = d'.name → (∃ signature, d.content = .ctor signature) ∧ d'.content = .dtor ∨
    d.content = .dtor ∧ ∃ signature, d'.content = .ctor signature

/-- Getting along goes both ways. -/
theorem Coexist.symm {d d' : Declaration} (h : d.Coexist d') : d'.Coexist d :=
  fun hname => (h hname.symm).symm.imp And.symm And.symm

instance : Std.Symm Coexist := ⟨fun _ _ => Coexist.symm⟩

end Declaration

/-- The names that a member of a class declares. -/
def Member.declarations (className : String) : Member → List Declaration
  | .attribute decl _ => decl.declarators.map fun d => ⟨d.name, .value (.attribute
      ⟨.ofWritten decl.type, decl.isFinal, decl.isStatic, d.init.isSome⟩)⟩
  | .method decl _ => [⟨decl.name, .value (.method
      ⟨decl.result.map .ofWritten, ClassTable.paramTypes decl.params, decl.isStatic⟩)⟩]
  | .ctor decl _ => [⟨decl.name, .ctor
      ⟨some (.object className), ClassTable.paramTypes decl.params, false⟩⟩]
  | .dtor decl _ => [⟨decl.name, .dtor⟩]

/-- The names that a class declares, in order. -/
def ClassDecl.declarations (c : ClassDecl) : List Declaration :=
  c.members.flatMap (Member.declarations c.name.name)

/-- What a class declares itself, by name. -/
def ClassDecl.view (c : ClassDecl) : ClassView where
  parent := c.parent.map (·.name)
  attributes name := (c.declarations.findSome? (·.value? name)).bind ValueMember.attribute?
  methods name := (c.declarations.findSome? (·.value? name)).bind ValueMember.method?
  ctor := c.declarations.findSome? (·.ctor? c.name.name)

namespace Program

/-- The classes that a program can name: its own and that of input and output. -/
def declared (p : Program) : Classes := fun name =>
  if name = ioClass then some ClassTable.ioEntry.view
  else (p.classes.find? (·.name.name = name)).map ClassDecl.view

/-- The declared classes are the built-in one and those of the program. -/
theorem isSome_declared_iff {p : Program} {name : String} :
    (p.declared name).isSome = true ↔ name = ioClass ∨ ∃ c ∈ p.classes, c.name.name = name := by
  unfold declared
  split
  · rename_i hio
    simp [hio]
  · rename_i hio
    rw [Option.isSome_map, List.find?_isSome]
    simp [hio]

/-- A program is well formed. -/
structure WellFormed (p : Program) : Prop where
  /-- The classes have distinct names, and none that of the built-in class. -/
  names : (ioClass :: p.classes.map (·.name.name)).Nodup
  /-- Every class that is extended is declared somewhere or built in. -/
  parents : ∀ c ∈ p.classes, ∀ parent, c.parent = some parent →
    parent.name = ioClass ∨ ∃ d ∈ p.classes, d.name.name = parent.name
  /-- The declarations of a class get along with each other. -/
  declarations : ∀ c ∈ p.classes, c.declarations.Pairwise Declaration.Coexist
  /-- All members are well formed. -/
  members : ∀ c ∈ p.classes, ∀ m ∈ c.members, MemberOk p.declared c.name.name m
  /-- The program can start: some class has a static method of the right name, without
  parameters and without a result. -/
  entry : ∃ c ∈ p.classes, ∃ decl span, .method decl span ∈ c.members ∧ decl.name = mainName ∧
    decl.isStatic = true ∧ decl.params = [] ∧ decl.result = none

end Program

end ClassCheck
