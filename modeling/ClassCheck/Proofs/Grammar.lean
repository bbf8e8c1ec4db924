import ClassCheck.Parser.Program
import Mathlib.Data.List.Forall2
import Mathlib.Data.List.TakeWhile

/-!
# The grammar

Which sequences of token kinds spell which trees. The rules follow the trees: each says what the
parts of a node are spelled by and which tokens stand between them. Spans are left open, so a
sequence spells every tree that is equal to one it spells up to spans. Binary operators are tied
together by their level: the left operand of an operator has at least its level, and the right
operand a higher one, so operators of one level group to the left.
-/

namespace ClassCheck

open ClassCheck.Parser (integerValue floatValue stringValue sizeValue)

/-! ## Sequences -/

section

variable {α : Type} (sign : Symbol) (R : List TokenKind → α → Prop)

/-- Items one or more times with a sign between them. -/
inductive Separated : List TokenKind → List α → Prop
  | one {ks : List TokenKind} {a : α} : R ks a → Separated ks [a]
  | more {ks ms : List TokenKind} {a : α} {as : List α} : R ks a → Separated ms as →
      Separated (ks ++ .symbol sign :: ms) (a :: as)

/-- Items any number of times with a sign between them. -/
inductive Listed : List TokenKind → List α → Prop
  | none : Listed [] []
  | some {ks : List TokenKind} {as : List α} : Separated sign R ks as → Listed ks as

/-- Items any number of times, one behind the other. -/
inductive Repeated : List TokenKind → List α → Prop
  | nil : Repeated [] []
  | cons {ks ms : List TokenKind} {a : α} {as : List α} : R ks a → Repeated ms as →
      Repeated (ks ++ ms) (a :: as)

variable {sign R} in
/-- Items with a sign between them start with one, and the sign or nothing follows. -/
theorem Separated.exists_first {us : List TokenKind} {as : List α} (h : Separated sign R us as) :
    ∃ ks vs a as', us = ks ++ vs ∧ as = a :: as' ∧ R ks a ∧
      (vs.head? = none ∨ vs.head? = .some (.symbol sign)) := by
  cases h with
  | one ha => exact ⟨us, [], _, _, (List.append_nil us).symm, rfl, ha, .inl rfl⟩
  | more ha _ => exact ⟨_, _, _, _, rfl, rfl, ha, .inr rfl⟩

variable {sign R} in
/-- There is one item at least. -/
theorem Separated.ne_nil {us : List TokenKind} {as : List α} (h : Separated sign R us as) :
    as ≠ [] := by
  cases h <;> exact List.cons_ne_nil _ _

variable {sign R} in
/-- Each item is spelled by some of the tokens. -/
theorem Separated.exists_of_mem {us : List TokenKind} {as : List α} (h : Separated sign R us as)
    {a : α} (ha : a ∈ as) : ∃ ks, R ks a ∧ ks ⊆ us := by
  induction h with
  | @one ks _ hfirst =>
    rw [List.mem_singleton] at ha
    exact ⟨ks, ha ▸ hfirst, List.Subset.refl ks⟩
  | @more ks ms _ _ hfirst _ ih =>
    rcases List.mem_cons.mp ha with rfl | hin
    · exact ⟨ks, hfirst, List.subset_append_left ks _⟩
    · obtain ⟨vs, hvs, hsub⟩ := ih hin
      exact ⟨vs, hvs, fun k hk => List.mem_append_right ks (List.mem_cons_of_mem _ (hsub hk))⟩

variable {sign R} in
/-- An item of a list is spelled by some of the tokens. -/
theorem Listed.exists_of_mem {us : List TokenKind} {as : List α} (h : Listed sign R us as)
    {a : α} (ha : a ∈ as) : ∃ ks, R ks a ∧ ks ⊆ us := by
  cases h with
  | none => cases ha
  | some h => exact h.exists_of_mem ha

variable {R} in
/-- So is an item of a repetition. -/
theorem Repeated.exists_of_mem {us : List TokenKind} {as : List α} (h : Repeated R us as)
    {a : α} (ha : a ∈ as) : ∃ ks, R ks a ∧ ks ⊆ us := by
  induction h with
  | nil => cases ha
  | @cons ks ms _ _ hfirst _ ih =>
    rcases List.mem_cons.mp ha with rfl | hin
    · exact ⟨ks, hfirst, List.subset_append_left ks ms⟩
    · obtain ⟨vs, hvs, hsub⟩ := ih hin
      exact ⟨vs, hvs, List.Subset.trans hsub (List.subset_append_right ks ms)⟩

end

/-! ## Types -/

/-- The word for a primitive type. -/
def Primitive.word : Primitive → Keyword
  | .int => .kwInt
  | .float => .kwFloat
  | .boolean => .kwBoolean
  | .string => .kwString

/-- A sequence spells a type: a base type, sizes in brackets and at most one reference mark. -/
inductive WrittenType.Spelled : List TokenKind → WrittenType → Prop
  | primitive {type : Primitive} {span : Span} :
      Spelled [.keyword type.word] (.primitive type span)
  | named {name : String} {span : Span} : Spelled [.identifier name] (.named name span)
  | array {ks : List TokenKind} {element : WrittenType} {text : String} {size : Nat}
      {span : Span} : element.isReference = false → Spelled ks element →
      sizeValue text = .ok size →
      Spelled (ks ++ [.symbol .lbracket, .integer text, .symbol .rbracket])
        (.array element size span)
  | reference {ks : List TokenKind} {referent : WrittenType} {span : Span} :
      referent.isReference = false → Spelled ks referent →
      Spelled (ks ++ [.symbol .amp]) (.reference referent span)

/-! ## Expressions -/

/-- The sign of a binary operator. -/
def BinaryOp.symbol : BinaryOp → Symbol
  | .add => .plus
  | .sub => .minus
  | .mul => .star
  | .div => .slash
  | .intDiv => .backslash
  | .mod => .percent
  | .eq => .eqEq
  | .ne => .notEq
  | .lt => .less
  | .gt => .greater
  | .le => .lessEq
  | .ge => .greaterEq
  | .and => .andAnd
  | .or => .orOr
  | .concat => .caret

/-- How tightly a binary operator binds, the loosest first. -/
def BinaryOp.level : BinaryOp → Nat
  | .or => 0
  | .and => 1
  | .eq | .ne => 2
  | .lt | .gt | .le | .ge => 3
  | .concat => 4
  | .add | .sub => 5
  | .mul | .div | .intDiv | .mod => 6

/-- Signs in front and selections are tied together more tightly than operators. -/
theorem BinaryOp.level_lt (op : BinaryOp) : op.level < 7 := by
  cases op <;> decide

/-- The sign of a unary operator. -/
def UnaryOp.symbol : UnaryOp → Symbol
  | .neg => .minus
  | .plus => .plus
  | .not => .bang

/-- How tightly an expression is tied together: a binary operation like its operator, then a
unary operation, then a selection, and most of all what needs no operator. -/
def Expr.level : Expr → Nat
  | .binary op .. => op.level
  | .unary .. => 7
  | .field .. | .call .. | .index .. => 8
  | .int .. | .float .. | .bool .. | .string .. | .nil _ | .self _ | .ident .. | .create ..
  | .array .. | .paren .. => 9

/-- A sequence spells an expression. -/
inductive Expr.Spelled : List TokenKind → Expr → Prop
  | int {text : String} {value : Int} {span : Span} : integerValue text = .ok value →
      Spelled [.integer text] (.int value span)
  | float {text : String} {value : Number.Binary64} {span : Span} : floatValue text = .ok value →
      Spelled [.float text] (.float value span)
  | string {text value : String} {span : Span} : stringValue text = .ok value →
      Spelled [.string text] (.string value span)
  | true {span : Span} : Spelled [.keyword .kwTrue] (.bool Bool.true span)
  | false {span : Span} : Spelled [.keyword .kwFalse] (.bool Bool.false span)
  | nil {span : Span} : Spelled [.keyword .kwNil] (.nil span)
  | self {span : Span} : Spelled [.keyword .kwThis] (.self span)
  | ident {name : String} {span : Span} : Spelled [.identifier name] (.ident name span)
  | create {className : String} {ks : List TokenKind} {args : List Expr} {span : Span} :
      Listed .comma Spelled ks args →
      Spelled (.keyword .kwNew :: .identifier className :: .symbol .lparen ::
        (ks ++ [.symbol .rparen])) (.create className args span)
  | paren {ks : List TokenKind} {inner : Expr} {span : Span} : Spelled ks inner →
      Spelled (.symbol .lparen :: (ks ++ [.symbol .rparen])) (.paren inner span)
  | array {ks : List TokenKind} {elements : List Expr} {span : Span} :
      Separated .comma Spelled ks elements →
      Spelled (.symbol .lbrace :: (ks ++ [.symbol .rbrace])) (.array elements span)
  | field {ks : List TokenKind} {object : Expr} {name : String} {span : Span} :
      8 ≤ object.level → Spelled ks object →
      Spelled (ks ++ [.symbol .dot, .identifier name]) (.field object name span)
  | call {ks ms : List TokenKind} {receiver : Expr} {method : String} {args : List Expr}
      {span : Span} : 8 ≤ receiver.level → Spelled ks receiver → Listed .comma Spelled ms args →
      Spelled (ks ++ .symbol .dot :: .identifier method :: .symbol .lparen ::
        (ms ++ [.symbol .rparen])) (.call receiver method args span)
  | index {ks ms : List TokenKind} {object position : Expr} {span : Span} :
      8 ≤ object.level → Spelled ks object → Spelled ms position →
      Spelled (ks ++ .symbol .lbracket :: (ms ++ [.symbol .rbracket]))
        (.index object position span)
  | unary {op : UnaryOp} {ks : List TokenKind} {operand : Expr} {span : Span} :
      7 ≤ operand.level → Spelled ks operand →
      Spelled (.symbol op.symbol :: ks) (.unary op operand span)
  | binary {op : BinaryOp} {ks ms : List TokenKind} {left right : Expr} {span : Span} :
      op.level ≤ left.level → Spelled ks left → op.level < right.level → Spelled ms right →
      Spelled (ks ++ .symbol op.symbol :: ms) (.binary op left right span)

/-- An expression has a token. -/
theorem Expr.Spelled.ne_nil {ks : List TokenKind} {e : Expr} (h : e.Spelled ks) : ks ≠ [] := by
  cases h <;> simp

/-! ## Statements -/

/-- A sequence spells a declared name with its optional initial value. -/
inductive Declarator.Spelled : List TokenKind → Declarator → Prop
  | plain {name : String} {span : Span} : Spelled [.identifier name] ⟨name, none, span⟩
  | init {name : String} {ks : List TokenKind} {e : Expr} {span : Span} : e.Spelled ks →
      Spelled (.identifier name :: .symbol .assign :: ks) ⟨name, some e, span⟩

/-- The word for the way a loop counts. -/
def Direction.keyword : Direction → Keyword
  | .up => .kwTo
  | .down => .kwDownto

/-- Whether a statement ends in a branch that an alternative could be added to. -/
def Stmt.endsOpen : Stmt → Bool
  | .ifThen .. => true
  | .ifElse _ _ elseBranch _ => elseBranch.endsOpen
  | .loop _ _ _ _ body _ => body.endsOpen
  | _ => false

/-- A sequence spells a statement. -/
inductive Stmt.Spelled : List TokenKind → Stmt → Prop
  | declare {ks ms : List TokenKind} {isFinal : Bool} {type : WrittenType}
      {ds : List Declarator} {span : Span} : type.Spelled ks →
      Separated .comma Declarator.Spelled ms ds →
      Spelled ((if isFinal then [.keyword .kwFinal] else []) ++ ks ++ ms ++ [.symbol .semi])
        (.declare isFinal type ds span)
  | assign {ks ms : List TokenKind} {target value : Expr} {span : Span} :
      target.isPlace = true → ks.head? ≠ some (.symbol .lbrace) → target.Spelled ks →
      value.Spelled ms →
      Spelled (ks ++ .symbol .assign :: (ms ++ [.symbol .semi])) (.assign target value span)
  | call {ks : List TokenKind} {invocation : Expr} {span : Span} :
      invocation.isCall = true → ks.head? ≠ some (.symbol .lbrace) → invocation.Spelled ks →
      Spelled (ks ++ [.symbol .semi]) (.call invocation span)
  | ifThen {ks ms : List TokenKind} {condition : Expr} {thenBranch : Stmt} {span : Span} :
      condition.Spelled ks → Spelled ms thenBranch →
      Spelled (.keyword .kwIf :: (ks ++ .keyword .kwThen :: ms)) (.ifThen condition thenBranch span)
  | ifElse {ks ms ns : List TokenKind} {condition : Expr} {thenBranch elseBranch : Stmt}
      {span : Span} : condition.Spelled ks → thenBranch.endsOpen = false → Spelled ms thenBranch →
      Spelled ns elseBranch →
      Spelled (.keyword .kwIf :: (ks ++ .keyword .kwThen :: (ms ++ .keyword .kwElse :: ns)))
        (.ifElse condition thenBranch elseBranch span)
  | loop {counter : Ident} {ks ms ns : List TokenKind} {first last : Expr}
      {direction : Direction} {body : Stmt} {span : Span} : first.Spelled ks → last.Spelled ms →
      Spelled ns body →
      Spelled (.keyword .kwFor :: .identifier counter.name :: .symbol .assign ::
        (ks ++ .keyword direction.keyword :: (ms ++ .keyword .kwDo :: ns)))
        (.loop counter first last direction body span)
  | breakLoop {span : Span} : Spelled [.keyword .kwBreak, .symbol .semi] (.breakLoop span)
  | continueLoop {span : Span} :
      Spelled [.keyword .kwContinue, .symbol .semi] (.continueLoop span)
  | returnNothing {span : Span} :
      Spelled [.keyword .kwReturn, .symbol .semi] (.returnValue none span)
  | returnValue {ks : List TokenKind} {value : Expr} {span : Span} : value.Spelled ks →
      Spelled (.keyword .kwReturn :: (ks ++ [.symbol .semi])) (.returnValue (some value) span)
  | block {ks : List TokenKind} {stmts : List Stmt} {span : Span} : Repeated Spelled ks stmts →
      Spelled (.symbol .lbrace :: (ks ++ [.symbol .rbrace])) (.block stmts span)

/-- A statement has a token. -/
theorem Stmt.Spelled.ne_nil {ks : List TokenKind} {s : Stmt} (h : s.Spelled ks) : ks ≠ [] := by
  cases h <;> simp

/-- A sequence spells the body of a member. -/
inductive Block.Spelled : List TokenKind → Block → Prop
  | mk {ks : List TokenKind} {stmts : List Stmt} {span : Span} : Repeated Stmt.Spelled ks stmts →
      Spelled (.symbol .lbrace :: (ks ++ [.symbol .rbrace])) ⟨stmts, span⟩

/-! ## Members and classes -/

/-- A sequence spells a name and nothing else. -/
def Ident.Spelled (ks : List TokenKind) (id : Ident) : Prop := ks = [.identifier id.name]

/-- A sequence spells parameters of one type: the type, and their names. -/
inductive Param.GroupSpelled : List TokenKind → List Param → Prop
  | mk {ks ms : List TokenKind} {ps : List Param} : (∀ p ∈ ps, p.type.Spelled ks) →
      Separated .comma Ident.Spelled ms (ps.map fun p => ⟨p.name, p.span⟩) →
      GroupSpelled (ks ++ ms) ps

/-- A sequence spells parameters in parentheses. -/
inductive Param.ListSpelled : List TokenKind → List Param → Prop
  | mk {ks : List TokenKind} {groups : List (List Param)} : Listed .semi GroupSpelled ks groups →
      ListSpelled (.symbol .lparen :: (ks ++ [.symbol .rparen])) groups.flatten

/-- A sequence of modifiers in any order and number, and what they say. -/
structure Parser.Modifiers.Spelled (ks : List TokenKind) (m : Parser.Modifiers) : Prop where
  /-- There are no other tokens. -/
  words : ∀ k ∈ ks, k = .keyword .kwStatic ∨ k = .keyword .kwFinal
  /-- The member belongs to the class itself if one of the words says so. -/
  isStatic : m.isStatic = true ↔ .keyword .kwStatic ∈ ks
  /-- The member is a constant if one of the words says so. -/
  isFinal : m.isFinal = true ↔ .keyword .kwFinal ∈ ks

/-- A sequence spells the type of a result, or the word for none. -/
inductive ResultSpelled : List TokenKind → Option WrittenType → Prop
  | void : ResultSpelled [.keyword .kwVoid] none
  | type {ks : List TokenKind} {type : WrittenType} : type.Spelled ks →
      ResultSpelled ks (some type)

/-- A sequence spells a member of a class. -/
inductive Member.Spelled : List TokenKind → Member → Prop
  | attribute {ks ms ns : List TokenKind} {isStatic isFinal : Bool} {type : WrittenType}
      {ds : List Declarator} {span : Span} : Parser.Modifiers.Spelled ks ⟨isStatic, isFinal⟩ →
      type.Spelled ms → Separated .comma Declarator.Spelled ns ds →
      Spelled (ks ++ ms ++ ns ++ [.symbol .semi]) (.attribute ⟨isStatic, isFinal, type, ds⟩ span)
  | method {ks ms ns bs : List TokenKind} {isStatic : Bool} {result : Option WrittenType}
      {name : String} {params : List Param} {body : Block} {span : Span} :
      Parser.Modifiers.Spelled ks ⟨isStatic, false⟩ → ResultSpelled ms result →
      Param.ListSpelled ns params → body.Spelled bs →
      Spelled (ks ++ ms ++ .identifier name :: (ns ++ bs))
        (.method ⟨isStatic, result, name, params, body⟩ span)
  | ctor {ks bs : List TokenKind} {name : String} {params : List Param} {body : Block}
      {span : Span} : Param.ListSpelled ks params → body.Spelled bs →
      Spelled (.identifier name :: (ks ++ bs)) (.ctor ⟨name, params, body⟩ span)
  | dtor {bs : List TokenKind} {name : String} {body : Block} {span : Span} : body.Spelled bs →
      Spelled (.symbol .tilde :: .identifier name :: .symbol .lparen :: .symbol .rparen :: bs)
        (.dtor ⟨name, body⟩ span)

/-- A member has a token. -/
theorem Member.Spelled.ne_nil {ks : List TokenKind} {m : Member} (h : m.Spelled ks) :
    ks ≠ [] := by
  cases h <;> simp

/-- A sequence spells the class that a class extends, or nothing. -/
inductive ParentSpelled : List TokenKind → Option Ident → Prop
  | none : ParentSpelled [] none
  | some {parent : Ident} :
      ParentSpelled [.keyword .kwExtends, .identifier parent.name] (some parent)

/-- A sequence spells a class. -/
inductive ClassDecl.Spelled : List TokenKind → ClassDecl → Prop
  | mk {ks ms : List TokenKind} {name : Ident} {parent : Option Ident} {members : List Member}
      {span : Span} : ParentSpelled ks parent → Repeated Member.Spelled ms members →
      Spelled (.keyword .kwClass :: .identifier name.name ::
        (ks ++ .symbol .lbrace :: (ms ++ [.symbol .rbrace]))) ⟨name, parent, members, span⟩

/-- A sequence spells a program. -/
def Program.Spelled (ks : List TokenKind) (p : Program) : Prop :=
  Repeated ClassDecl.Spelled ks p.classes

/-- The kinds of the tokens before the first end of file. -/
def Token.kindsBeforeEof (ts : List Token) : List TokenKind :=
  (ts.map Token.kind).takeWhile (· ≠ .eof)

/-- There are no more kinds before the end of file than tokens. -/
theorem Token.length_kindsBeforeEof_le (ts : List Token) :
    (kindsBeforeEof ts).length ≤ ts.length := by
  have hle := (List.takeWhile_sublist (l := ts.map Token.kind) (· ≠ .eof)).length_le
  rwa [List.length_map] at hle

/-- Behind them stands an end of file, if anything does. -/
theorem Token.exists_kinds_eq_append (ts : List Token) :
    ∃ rest, ts.map Token.kind = kindsBeforeEof ts ++ rest ∧ rest.head?.getD .eof = .eof := by
  refine ⟨(ts.map Token.kind).dropWhile (· ≠ .eof), List.takeWhile_append_dropWhile.symm, ?_⟩
  have hhead := List.head?_dropWhile_not (fun k : TokenKind => decide (k ≠ .eof)) (ts.map Token.kind)
  cases hrest : (ts.map Token.kind).dropWhile (· ≠ .eof) with
  | nil => rfl
  | cons k ks =>
    rw [hrest] at hhead
    simpa using hhead

/-! ## The tokens and levels of the parser -/

namespace Parser

/-- A token is moved over just if it has the kind that may be there. -/
theorem accept_apply (kind : TokenKind) (c : Cursor) :
    accept kind c =
      if c.current.kind = kind then .ok (true, c.advance) else .ok (false, c) := by
  rw [accept, bind_apply, peek]
  dsimp only
  split <;> rfl

/-- A level holds the operators of one precedence. -/
def Level.Holds (level : Level) (n : Nat) : Prop :=
  ∀ k op, level k = some op ↔ k = .symbol op.symbol ∧ op.level = n

/-- The levels are in the order of precedence. -/
theorem levels_hold : List.Forall₂ Level.Holds levels (List.range' 0 7) := by
  have hlevel : ∀ (level : Level) (n : Nat),
      (∀ k op, level k = some op → k = .symbol op.symbol ∧ op.level = n) →
      (∀ op : BinaryOp, op.level = n → level (.symbol op.symbol) = some op) → level.Holds n := by
    intro level n hsome hop k op
    refine ⟨hsome k op, ?_⟩
    rintro ⟨rfl, h⟩
    exact hop op h
  refine .cons ?_ (.cons ?_ (.cons ?_ (.cons ?_ (.cons ?_ (.cons ?_ (.cons ?_ .nil))))))
  all_goals
    refine hlevel _ _ ?_ ?_
    · intro k op h
      split at h <;> cases h <;> exact ⟨rfl, rfl⟩
    · intro op h
      cases op <;> first | rfl | cases h

/-- What holds of the signed expressions and goes over from each level to the one below it holds
of all expressions. -/
theorem layered_induction {P : Nat → Parser Expr → Prop} {nested : Parser Expr} {bound : Nat}
    (hsigned : P 7 (signed nested bound bound))
    (hstep : ∀ level n operand, Level.Holds level n → n < 7 → P (n + 1) operand →
      P n (leftGrouped level operand bound)) : P 0 (layered nested bound) := by
  have hfold : ∀ (ls : List Level) (n : Nat), n + ls.length = 7 →
      List.Forall₂ Level.Holds ls (List.range' n ls.length) →
      P n (ls.foldr (fun level operand => leftGrouped level operand bound)
        (signed nested bound bound)) := by
    intro ls
    induction ls with
    | nil =>
      rintro n rfl -
      exact hsigned
    | cons level ls ih =>
      intro n hn hls
      rw [List.length_cons] at hn
      obtain ⟨hlevel, hls⟩ := List.forall₂_cons.mp hls
      exact hstep level n _ hlevel (by omega) (ih (n + 1) (by omega) hls)
  exact hfold levels 0 rfl levels_hold

end Parser

end ClassCheck
