import ClassCheck.Parser.Program
import ClassCheck.Proofs.Spanless

/-!
# Parsing without spans

A parser looks at the kinds of tokens and only carries their spans along. So to strip the tokens
first and parse then is the same as to parse first and strip the answer. This goes through the
parsers one by one; what takes spans as an argument takes the stripped ones on the other side.
-/

namespace ClassCheck

/-- Values that can be stripped of their spans. -/
class Spanned (α : Type) where
  /-- The value without spans. -/
  spanless : α → α

namespace Spanned

instance : Spanned Span := ⟨fun _ => .nowhere⟩
instance : Spanned Token := ⟨Token.spanless⟩
instance : Spanned Ident := ⟨Ident.spanless⟩
instance : Spanned WrittenType := ⟨WrittenType.spanless⟩
instance : Spanned Expr := ⟨Expr.spanless⟩
instance : Spanned Declarator := ⟨Declarator.spanless⟩
instance : Spanned Stmt := ⟨Stmt.spanless⟩
instance : Spanned Block := ⟨Block.spanless⟩
instance : Spanned Param := ⟨Param.spanless⟩
instance : Spanned Member := ⟨Member.spanless⟩
instance : Spanned ClassDecl := ⟨ClassDecl.spanless⟩
instance : Spanned Program := ⟨Program.spanless⟩
instance : Spanned Bool := ⟨id⟩
instance : Spanned Nat := ⟨id⟩
instance : Spanned Int := ⟨id⟩
instance : Spanned Number.Binary64 := ⟨id⟩
instance : Spanned String := ⟨id⟩
instance : Spanned Direction := ⟨id⟩
instance : Spanned Parser.Modifiers := ⟨id⟩
instance {α : Type} [Spanned α] : Spanned (List α) := ⟨List.map spanless⟩
instance {α : Type} [Spanned α] : Spanned (Option α) := ⟨Option.map spanless⟩

end Spanned

namespace Cursor

/-- The token ahead may be stripped alone. -/
theorem current_spanless (c : Cursor) : c.spanless.current = c.current.spanless := by
  obtain ⟨tokens, supplied, last⟩ := c
  cases tokens <;> rfl

/-- Moving over a token does not depend on spans. -/
theorem advance_spanless (c : Cursor) : c.spanless.advance = c.advance.spanless := by
  obtain ⟨tokens, supplied, last⟩ := c
  cases tokens with
  | nil => rfl
  | cons t ts =>
    -- Stripped or not, the token is an end of file or not.
    change (if t.kind = .eof then _ else _) = spanless (if t.kind = .eof then _ else _)
    split <;> rfl

end Cursor

namespace Parser

/-- An answer of a parser without spans. -/
def strip {α : Type} [Spanned α] : Except Rejection (α × Cursor) → Except Rejection (α × Cursor)
  | .ok (a, c) => .ok (Spanned.spanless a, c.spanless)
  | .error r => .error r.spanless

/-- On stripped tokens, the first parser answers what the second does, but stripped. -/
def Strips {α : Type} [Spanned α] (p' p : Parser α) : Prop := ∀ c, p' c.spanless = strip (p c)

section

variable {α β : Type} [Spanned α] [Spanned β]

/-- A value is yielded stripped. -/
theorem Strips.pure (a : α) : Strips (pure (Spanned.spanless a)) (pure a : Parser α) :=
  fun _ => rfl

private theorem Strips.pure_of_eq {a' a : α} (h : a' = Spanned.spanless a) :
    Strips (Pure.pure a') (Pure.pure a : Parser α) := by
  subst h
  exact .pure a

/-- Parsers in a row: what the first yields stripped is handed to the second stripped. -/
theorem Strips.bind {p' p : Parser α} {f' f : α → Parser β} (hp : Strips p' p)
    (hf : ∀ a, Strips (f' (Spanned.spanless a)) (f a)) : Strips (p' >>= f') (p >>= f) := by
  intro c
  rw [bind_apply, bind_apply, hp c]
  cases p c with
  | error e => rfl
  | ok r => exact hf r.1 r.2

/-- A test that does not look at spans takes the same side. -/
theorem Strips.ite {p' p q' q : Parser α} {b : Prop} [Decidable b] (hp : Strips p' p)
    (hq : Strips q' q) : Strips (if b then p' else q') (if b then p else q) := by
  split
  · exact hp
  · exact hq

/-! ## Single tokens -/

private theorem strips_peek : Strips peek peek := fun c => by
  rw [peek, peek, Cursor.current_spanless]
  rfl

private theorem strips_peekAll : Strips peekAll peekAll := fun _ => rfl

private theorem strips_lastSpan : Strips lastSpan lastSpan := fun _ => rfl

private theorem strips_advance : Strips advance advance := fun c => by
  rw [advance, advance, Cursor.current_spanless, Cursor.advance_spanless]
  rfl

/-- A failure keeps its fault and loses its place. -/
theorem strips_fail (fault : SyntaxFault) (span : Span) :
    Strips (fail fault .nowhere : Parser α) (fail fault span) :=
  fun _ => rfl

private theorem strips_failExpected (what : Expectation) :
    Strips (failExpected what : Parser α) (failExpected what) :=
  strips_peek.bind fun t => strips_fail _ t.span

/-- A used-up bound fails alike, wherever it is found. -/
theorem strips_exhausted : Strips (exhausted : Parser α) exhausted :=
  strips_peek.bind fun t => strips_fail _ t.span

private theorem strips_accept (kind : TokenKind) : Strips (accept kind) (accept kind) :=
  strips_peek.bind fun _ => .ite (strips_advance.bind fun _ => .pure true) (.pure false)

private theorem strips_expect (kind : TokenKind) : Strips (expect kind) (expect kind) :=
  strips_peek.bind fun _ =>
    .ite (strips_advance.bind fun t => .pure t.span) (strips_failExpected _)

private theorem strips_acceptSymbol (sign : Symbol) :
    Strips (acceptSymbol sign) (acceptSymbol sign) :=
  strips_accept _

private theorem strips_acceptKeyword (word : Keyword) :
    Strips (acceptKeyword word) (acceptKeyword word) :=
  strips_accept _

private theorem strips_symbol (sign : Symbol) :
    Strips (symbol sign) (symbol sign) := strips_expect _

private theorem strips_keyword (word : Keyword) :
    Strips (keyword word) (keyword word) := strips_expect _

/-- A name is stripped of where it stands. -/
theorem strips_identifier : Strips identifier identifier := by
  refine strips_peek.bind fun ⟨kind, span⟩ => ?_
  dsimp only [Spanned.spanless, Token.spanless]
  split
  · exact strips_advance.bind fun _ => .pure (⟨_, span⟩ : Ident)
  · exact strips_failExpected _

/-- A value that is read from a text has no spans. -/
theorem strips_lift (value : Except SyntaxFault α) (span : Span)
    (h : ∀ a : α, Spanned.spanless a = a) : Strips (lift value .nowhere) (lift value span) := by
  cases value with
  | ok a => exact .pure_of_eq (h a).symm
  | error fault => exact strips_fail _ _

/-! ## Repetition -/

/-- Items with a sign between them are stripped one by one. -/
theorem strips_separated (sign : Symbol) {item' item : Parser α} (h : Strips item' item)
    (bound : Nat) : Strips (separated sign item' bound) (separated sign item bound) := by
  induction bound with
  | zero => exact strips_exhausted
  | succ bound ih =>
    exact h.bind fun a => (strips_acceptSymbol sign).bind fun _ =>
      .ite (ih.bind fun as => .pure (a :: as)) (.pure [a])

/-- So are items up to a certain token. -/
theorem strips_manyUntil (ends : TokenKind → Bool) {item' item : Parser α} (h : Strips item' item)
    (bound : Nat) : Strips (manyUntil ends item' bound) (manyUntil ends item bound) := by
  induction bound with
  | zero => exact strips_exhausted
  | succ bound ih =>
    exact strips_peek.bind fun _ =>
      .ite (.pure ([] : List α)) (h.bind fun a => ih.bind fun as => .pure (a :: as))

end

/-! ## Types -/

private theorem strips_baseType : Strips baseType baseType := by
  refine strips_peek.bind fun ⟨kind, span⟩ => ?_
  have hbase : baseType? ⟨kind, .nowhere⟩ = (baseType? ⟨kind, span⟩).map WrittenType.spanless := by
    unfold baseType?
    dsimp only
    split <;> rfl
  dsimp only [Spanned.spanless, Token.spanless]
  rw [hbase]
  cases baseType? ⟨kind, span⟩ with
  | none => exact strips_failExpected _
  | some type => exact strips_advance.bind fun _ => .pure type

private theorem strips_arraySize : Strips arraySize arraySize := by
  refine strips_advance.bind fun ⟨kind, span⟩ => ?_
  dsimp only [Spanned.spanless, Token.spanless]
  split
  · exact strips_lift _ _ fun _ => rfl
  · exact strips_fail _ _

/-- The type before array sizes may be stripped first. -/
theorem strips_arraySizes (bound : Nat) (type : WrittenType) :
    Strips (arraySizes bound type.spanless) (arraySizes bound type) := by
  induction bound generalizing type with
  | zero => exact strips_exhausted
  | succ bound ih =>
    refine (strips_acceptSymbol _).bind fun _ => .ite ?_ (.pure type)
    refine strips_arraySize.bind fun size => (strips_symbol _).bind fun close => ?_
    rw [WrittenType.span_spanless]
    exact ih (.array type size (type.span.merge close))

/-- Written types do not depend on spans, but for their own. -/
theorem strips_writtenType (bound : Nat) : Strips (writtenType bound) (writtenType bound) := by
  refine strips_baseType.bind fun base => (strips_arraySizes bound base).bind fun type => ?_
  refine (strips_acceptSymbol _).bind fun _ => .ite ?_ (.pure type)
  refine strips_lastSpan.bind fun mark => ?_
  exact .pure_of_eq (by simp [Spanned.spanless, WrittenType.spanless])

/-! ## Expressions -/

section

variable {nested' nested : Parser Expr} (hn : Strips nested' nested) (bound : Nat)

include hn

private theorem strips_arguments : Strips (arguments nested' bound) (arguments nested bound) := by
  have hclose : ∀ args : List Expr,
      Strips (symbol .rparen >>= fun _ => pure (Spanned.spanless args))
        (symbol .rparen >>= fun _ => pure args) :=
    fun args => (strips_symbol _).bind fun _ => .pure args
  exact (strips_symbol _).bind fun _ => strips_peek.bind fun _ =>
    .ite ((Strips.pure ([] : List Expr)).bind hclose) ((strips_separated _ hn _).bind hclose)

private theorem strips_creation (start : Span) :
    Strips (creation nested' bound .nowhere) (creation nested bound start) :=
  strips_identifier.bind fun _ => (strips_arguments hn bound).bind fun _ =>
    strips_lastSpan.bind fun _ => .pure_of_eq
      (by simp [Spanned.spanless, Ident.spanless, Expr.spanless, Expr.spanlessAll_eq_map])

private theorem strips_parenthesized (start : Span) :
    Strips (parenthesized nested' .nowhere) (parenthesized nested start) :=
  hn.bind fun inner => (strips_symbol _).bind fun close =>
    .pure (Expr.paren inner (start.merge close))

private theorem strips_arrayElements (start : Span) :
    Strips (arrayElements nested' bound .nowhere) (arrayElements nested bound start) :=
  (strips_separated _ hn bound).bind fun _ => (strips_symbol _).bind fun _ =>
    .pure_of_eq (by simp [Spanned.spanless, Expr.spanless, Expr.spanlessAll_eq_map])

/-- Which primary expression there is is decided by the kinds of tokens. -/
theorem strips_primary : Strips (primary nested' bound) (primary nested bound) := by
  refine strips_peek.bind fun ⟨kind, span⟩ => ?_
  dsimp only [Spanned.spanless, Token.spanless]
  split
  · exact strips_advance.bind fun _ => (strips_lift _ span fun _ => rfl).bind fun value =>
      .pure (Expr.int value span)
  · exact strips_advance.bind fun _ => (strips_lift _ span fun _ => rfl).bind fun value =>
      .pure (Expr.float value span)
  · exact strips_advance.bind fun _ => (strips_lift _ span fun _ => rfl).bind fun value =>
      .pure (Expr.string value span)
  · exact strips_advance.bind fun _ => .pure (Expr.ident _ span)
  · exact strips_advance.bind fun _ => .pure (Expr.bool true span)
  · exact strips_advance.bind fun _ => .pure (Expr.bool false span)
  · exact strips_advance.bind fun _ => .pure (Expr.nil span)
  · exact strips_advance.bind fun _ => .pure (Expr.self span)
  · exact strips_advance.bind fun _ => strips_creation hn bound span
  · exact strips_advance.bind fun _ => strips_parenthesized hn span
  · exact strips_advance.bind fun _ => strips_arrayElements hn bound span
  · exact strips_failExpected _

private theorem strips_memberOf (object : Expr) :
    Strips (memberOf nested' bound object.spanless) (memberOf nested bound object) := by
  refine strips_identifier.bind fun name => strips_peek.bind fun _ => .ite ?_ ?_
  · exact (strips_arguments hn bound).bind fun _ => strips_lastSpan.bind fun _ => .pure_of_eq
      (by simp [Spanned.spanless, Ident.spanless, Expr.spanless, Expr.spanlessAll_eq_map])
  · exact .pure_of_eq (by simp [Spanned.spanless, Ident.spanless, Expr.spanless])

private theorem strips_elementOf (object : Expr) :
    Strips (elementOf nested' object.spanless) (elementOf nested object) :=
  hn.bind fun _ => (strips_symbol _).bind fun _ =>
    .pure_of_eq (by simp [Spanned.spanless, Expr.spanless])

/-- The object of selections may be stripped first. -/
theorem strips_selections (rounds : Nat) (e : Expr) :
    Strips (selections nested' bound rounds e.spanless) (selections nested bound rounds e) := by
  induction rounds generalizing e with
  | zero => exact strips_exhausted
  | succ rounds ih =>
    refine (strips_acceptSymbol _).bind fun _ => .ite ?_ ?_
    · exact (strips_memberOf hn bound e).bind ih
    · exact (strips_acceptSymbol _).bind fun _ =>
        .ite ((strips_elementOf hn e).bind ih) (.pure e)

private theorem strips_selected : Strips (selected nested' bound) (selected nested bound) :=
  (strips_primary hn bound).bind (strips_selections hn bound bound)

/-- Signs in front are read by kind, and the literal behind one is stripped with it. -/
theorem strips_signed (rounds : Nat) :
    Strips (signed nested' bound rounds) (signed nested bound rounds) := by
  induction rounds with
  | zero => exact strips_exhausted
  | succ rounds ih =>
    refine strips_peek.bind fun ⟨kind, span⟩ => ?_
    dsimp only [Spanned.spanless, Token.spanless]
    cases unaryOp? kind with
    | none => exact strips_selected hn bound
    | some op =>
      exact strips_advance.bind fun _ => ih.bind fun _ =>
        .pure_of_eq (by simp [Spanned.spanless, Expr.spanless])

/-- Operators are found by kind, and the left operand may be stripped first. -/
theorem strips_leftGrouped (level : Level) :
    Strips (leftGrouped level nested' bound) (leftGrouped level nested bound) := by
  have hoperations : ∀ (rounds : Nat) (left : Expr),
      Strips (operations level nested' rounds left.spanless)
        (operations level nested rounds left) := by
    intro rounds
    induction rounds with
    | zero => exact fun _ => strips_exhausted
    | succ rounds ih =>
      intro left
      refine strips_peek.bind fun ⟨kind, span⟩ => ?_
      dsimp only [Spanned.spanless, Token.spanless]
      cases level kind with
      | none => exact .pure left
      | some op =>
        refine strips_advance.bind fun _ => hn.bind fun right => ?_
        simpa [Spanned.spanless, Expr.spanless] using
          ih (.binary op left right (left.span.merge right.span))
  exact hn.bind (hoperations bound)

private theorem strips_layered : Strips (layered nested' bound) (layered nested bound) := by
  have hfold : ∀ ls : List Level, Strips
      (ls.foldr (fun level operand => leftGrouped level operand bound)
        (signed nested' bound bound))
      (ls.foldr (fun level operand => leftGrouped level operand bound)
        (signed nested bound bound)) := by
    intro ls
    induction ls with
    | nil => exact strips_signed hn bound bound
    | cons level ls ih => exact strips_leftGrouped ih bound level
  exact hfold levels

end

/-- Expressions do not depend on spans, but for their own. -/
theorem strips_expression (bound : Nat) : Strips (expression bound) (expression bound) := by
  induction bound with
  | zero => exact strips_exhausted
  | succ bound ih => exact strips_layered ih (bound + 1)

/-! ## Statements -/

private theorem strips_declarator (bound : Nat) : Strips (declarator bound) (declarator bound) := by
  refine strips_identifier.bind fun name => (strips_acceptSymbol _).bind fun _ => .ite ?_ ?_
  · exact (strips_expression bound).bind fun _ =>
      .pure_of_eq (by simp [Spanned.spanless, Declarator.spanless, Ident.spanless])
  · exact .pure (⟨name.name, none, name.span⟩ : Declarator)

private theorem strips_declarators (bound : Nat) : Strips (declarators bound) (declarators bound) :=
  strips_separated _ (strips_declarator bound) bound

private theorem strips_declaration (bound : Nat) : Strips (declaration bound) (declaration bound) :=
  strips_peek.bind fun first => (strips_acceptKeyword _).bind fun isFinal =>
    (strips_writtenType bound).bind fun type => (strips_declarators bound).bind fun names =>
      (strips_symbol _).bind fun close =>
        .pure (Stmt.declare isFinal type names (first.span.merge close))

private theorem strips_bareWord (start : Span) {make' make : Span → Stmt}
    (h : ∀ span, make' .nowhere = (make span).spanless) :
    Strips (bareWord .nowhere make') (bareWord start make) :=
  (strips_symbol _).bind fun close => .pure_of_eq (h (start.merge close))

private theorem strips_returning (bound : Nat) (start : Span) :
    Strips (returning bound .nowhere) (returning bound start) := by
  refine strips_peek.bind fun _ => .ite (strips_bareWord start fun _ => rfl) ?_
  exact (strips_expression bound).bind fun _ => strips_bareWord start fun _ => rfl

private theorem strips_assignment (bound : Nat) (start : Span) (target : Expr) :
    Strips (assignment bound .nowhere target.spanless) (assignment bound start target) := by
  unfold assignment
  rw [Expr.isPlace_spanless, Expr.span_spanless]
  refine .ite ?_ (strips_fail _ _)
  exact (strips_expression bound).bind fun value => (strips_symbol _).bind fun close =>
    .pure (Stmt.assign target value (start.merge close))

/-- Whether there is an assignment or a call is decided behind the first expression, by kind. -/
theorem strips_assignmentOrCall (bound : Nat) :
    Strips (assignmentOrCall bound) (assignmentOrCall bound) := by
  refine strips_peek.bind fun first => (strips_expression bound).bind fun e =>
    (strips_acceptSymbol _).bind fun _ => .ite (strips_assignment bound first.span e) ?_
  change Strips (if e.spanless.isCall = true then _ else fail _ e.spanless.span) _
  rw [Expr.isCall_spanless, Expr.span_spanless]
  exact .ite ((strips_symbol _).bind fun close => .pure (Stmt.call e (first.span.merge close)))
    (strips_fail _ _)

private theorem strips_direction : Strips direction direction :=
  (strips_acceptKeyword _).bind fun _ => .ite (.pure Direction.up)
    ((strips_acceptKeyword _).bind fun _ => .ite (.pure Direction.down) (strips_failExpected _))

/-- Looking past array sizes depends on kinds only. -/
theorem afterSizes_spanless (ts : List Token) :
    afterSizes (ts.map Token.spanless) = (afterSizes ts).map Token.spanless := by
  fun_induction afterSizes ts with
  | case1 _ _ _ _ ts ih => exact ih
  | case2 ts h =>
    refine afterSizes.eq_2 _ fun _ _ _ _ _ heq => ?_
    obtain ⟨⟨k₁, s₁⟩, ts₁, rfl, h₁, heq⟩ := List.map_eq_cons_iff.mp heq
    obtain ⟨⟨k₂, s₂⟩, ts₂, rfl, h₂, heq⟩ := List.map_eq_cons_iff.mp heq
    obtain ⟨⟨k₃, s₃⟩, ts₃, rfl, h₃, heq⟩ := List.map_eq_cons_iff.mp heq
    cases h₁
    cases h₂
    cases h₃
    exact h _ _ _ _ _ rfl

private theorem namesOrRefers_spanless (ts : List Token) :
    namesOrRefers (ts.map Token.spanless) = namesOrRefers ts := by
  match ts with
  | [] | ⟨.keyword _, _⟩ :: _ | ⟨.identifier _, _⟩ :: _ | ⟨.integer _, _⟩ :: _
  | ⟨.float _, _⟩ :: _ | ⟨.string _, _⟩ :: _ | ⟨.eof, _⟩ :: _ => rfl
  | ⟨.symbol sign, _⟩ :: _ => cases sign <;> rfl

/-- So does the test whether a declaration starts. -/
theorem startsDeclaration_spanless (ts : List Token) :
    startsDeclaration (ts.map Token.spanless) = startsDeclaration ts := by
  match ts with
  | [] | ⟨.symbol _, _⟩ :: _ | ⟨.integer _, _⟩ :: _ | ⟨.float _, _⟩ :: _ | ⟨.string _, _⟩ :: _
  | ⟨.eof, _⟩ :: _ => rfl
  | ⟨.keyword word, _⟩ :: _ => cases word <;> rfl
  | ⟨.identifier _, _⟩ :: ts =>
    change namesOrRefers (afterSizes (ts.map Token.spanless)) = namesOrRefers (afterSizes ts)
    rw [afterSizes_spanless, namesOrRefers_spanless]

section

variable {nested' nested : Parser Stmt} (hn : Strips nested' nested) (bound : Nat)

include hn

private theorem strips_branch (start : Span) :
    Strips (branch nested' bound .nowhere) (branch nested bound start) := by
  refine (strips_expression bound).bind fun condition => (strips_keyword _).bind fun _ =>
    hn.bind fun thenBranch => (strips_acceptKeyword _).bind fun _ => .ite ?_ ?_
  · exact hn.bind fun elseBranch => strips_lastSpan.bind fun stop =>
      .pure (Stmt.ifElse condition thenBranch elseBranch (start.merge stop))
  · exact strips_lastSpan.bind fun stop =>
      .pure (Stmt.ifThen condition thenBranch (start.merge stop))

private theorem strips_countedLoop (start : Span) :
    Strips (countedLoop nested' bound .nowhere) (countedLoop nested bound start) :=
  strips_identifier.bind fun _ => (strips_symbol _).bind fun _ =>
    (strips_expression bound).bind fun _ => strips_direction.bind fun _ =>
      (strips_expression bound).bind fun _ => (strips_keyword _).bind fun _ =>
        hn.bind fun _ => .pure_of_eq (by simp [Spanned.spanless, Stmt.spanless])

private theorem strips_blockOf : Strips (blockOf nested' bound) (blockOf nested bound) :=
  (strips_symbol _).bind fun start => (strips_manyUntil _ hn bound).bind fun stmts =>
    (strips_symbol _).bind fun close => .pure (⟨stmts, start.merge close⟩ : Block)

/-- Which statement there is is decided by the kinds of tokens. -/
theorem strips_statementOf : Strips (statementOf nested' bound) (statementOf nested bound) := by
  refine strips_peek.bind fun ⟨kind, span⟩ => ?_
  dsimp only [Spanned.spanless, Token.spanless]
  split
  · exact (strips_blockOf hn bound).bind fun block => .pure_of_eq
      (by simp [Spanned.spanless, Block.spanless, Stmt.spanless, Stmt.spanlessAll_eq_map])
  · exact strips_advance.bind fun _ => strips_branch hn bound span
  · exact strips_advance.bind fun _ => strips_countedLoop hn bound span
  · exact strips_advance.bind fun _ => strips_bareWord span fun _ => rfl
  · exact strips_advance.bind fun _ => strips_bareWord span fun _ => rfl
  · exact strips_advance.bind fun _ => strips_returning bound span
  · refine strips_peekAll.bind fun ahead => ?_
    change Strips (if startsDeclaration (ahead.map Token.spanless) = true then _ else _) _
    rw [startsDeclaration_spanless]
    exact .ite (strips_declaration bound) (strips_assignmentOrCall bound)

end

/-- Statements do not depend on spans, but for their own. -/
theorem strips_statement (bound : Nat) : Strips (statement bound) (statement bound) := by
  induction bound with
  | zero => exact strips_exhausted
  | succ bound ih => exact strips_statementOf ih (bound + 1)

private theorem strips_block (bound : Nat) : Strips (block bound) (block bound) :=
  strips_blockOf (strips_statement bound) bound

/-! ## Members, classes and programs -/

private theorem strips_paramGroup (bound : Nat) : Strips (paramGroup bound) (paramGroup bound) :=
  (strips_writtenType bound).bind fun _ =>
    (strips_separated _ strips_identifier bound).bind fun _ => .pure_of_eq
      (by simp [Spanned.spanless, Param.spanless, Ident.spanless, Function.comp_def])

/-- Parameters are stripped group by group. -/
theorem strips_params (bound : Nat) : Strips (params bound) (params bound) := by
  have hclose : ∀ groups : List (List Param),
      Strips (symbol .rparen >>= fun _ => pure (Spanned.spanless groups).flatten)
        (symbol .rparen >>= fun _ => pure groups.flatten) :=
    fun groups => (strips_symbol _).bind fun _ =>
      .pure_of_eq (by simp [Spanned.spanless, List.map_flatten])
  exact (strips_symbol _).bind fun _ => strips_peek.bind fun _ =>
    .ite ((Strips.pure ([] : List (List Param))).bind hclose)
      ((strips_separated _ (strips_paramGroup bound) bound).bind hclose)

/-- The test whether a constructor starts depends on kinds only. -/
theorem startsNamedParens_spanless (ts : List Token) :
    startsNamedParens (ts.map Token.spanless) = startsNamedParens ts := by
  match ts with
  | ⟨.identifier _, _⟩ :: ⟨.symbol sign, _⟩ :: _ => cases sign <;> rfl
  | ⟨.identifier _, _⟩ :: ⟨.keyword _, _⟩ :: _ | ⟨.identifier _, _⟩ :: ⟨.identifier _, _⟩ :: _
  | ⟨.identifier _, _⟩ :: ⟨.integer _, _⟩ :: _ | ⟨.identifier _, _⟩ :: ⟨.float _, _⟩ :: _
  | ⟨.identifier _, _⟩ :: ⟨.string _, _⟩ :: _ | ⟨.identifier _, _⟩ :: ⟨.eof, _⟩ :: _
  | [] | [⟨.identifier _, _⟩] | ⟨.keyword _, _⟩ :: _ | ⟨.symbol _, _⟩ :: _ | ⟨.integer _, _⟩ :: _
  | ⟨.float _, _⟩ :: _ | ⟨.string _, _⟩ :: _ | ⟨.eof, _⟩ :: _ => rfl

private theorem strips_modifiers (rounds : Nat) (m : Modifiers) :
    Strips (modifiers rounds m) (modifiers rounds m) := by
  induction rounds generalizing m with
  | zero => exact strips_exhausted
  | succ rounds ih =>
    exact (strips_acceptKeyword _).bind fun _ => .ite (ih _)
      ((strips_acceptKeyword _).bind fun _ => .ite (ih _) (.pure m))

private theorem strips_destructor (bound : Nat) (start : Span) :
    Strips (destructor bound .nowhere) (destructor bound start) :=
  strips_identifier.bind fun name => (strips_symbol _).bind fun _ =>
    (strips_symbol _).bind fun _ => (strips_block bound).bind fun body =>
      .pure (Member.dtor ⟨name.name, body⟩ (start.merge body.span))

private theorem strips_constructorDecl (bound : Nat) (start : Span) :
    Strips (constructorDecl bound .nowhere) (constructorDecl bound start) :=
  strips_identifier.bind fun name => (strips_params bound).bind fun formals =>
    (strips_block bound).bind fun body =>
      .pure (Member.ctor ⟨name.name, formals, body⟩ (start.merge body.span))

private theorem strips_methodDecl (bound : Nat) (start : Span) (isStatic : Bool)
    (result : Option WrittenType) :
    Strips (methodDecl bound .nowhere isStatic (result.map WrittenType.spanless))
      (methodDecl bound start isStatic result) :=
  strips_identifier.bind fun name => (strips_params bound).bind fun formals =>
    (strips_block bound).bind fun body =>
      .pure (Member.method ⟨isStatic, result, name.name, formals, body⟩ (start.merge body.span))

private theorem strips_attributeDecl (bound : Nat) (start : Span) (m : Modifiers)
    (type : WrittenType) :
    Strips (attributeDecl bound .nowhere m type.spanless) (attributeDecl bound start m type) :=
  (strips_declarators bound).bind fun names => (strips_symbol _).bind fun close =>
    .pure (Member.attribute ⟨m.isStatic, m.isFinal, type, names⟩ (start.merge close))

private theorem strips_resultType (bound : Nat) : Strips (resultType bound) (resultType bound) :=
  (strips_acceptKeyword _).bind fun _ => .ite (.pure (none : Option WrittenType))
    ((strips_writtenType bound).bind fun type => .pure (some type))

private theorem strips_typedMember (bound : Nat) (start : Span) :
    Strips (typedMember bound .nowhere) (typedMember bound start) := by
  refine (strips_modifiers bound _).bind fun m => (strips_resultType bound).bind fun result =>
    strips_peekAll.bind fun ahead => ?_
  change Strips (if startsNamedParens (ahead.map Token.spanless) = true then _ else _) _
  rw [startsNamedParens_spanless]
  refine .ite (.ite (strips_fail _ _) (strips_methodDecl bound start _ result)) ?_
  cases result with
  | none => exact strips_fail _ _
  | some type => exact strips_attributeDecl bound start m type

/-- Members do not depend on spans, but for their own. -/
theorem strips_member (bound : Nat) : Strips (member bound) (member bound) := by
  refine strips_peek.bind fun t => strips_peekAll.bind fun ahead =>
    .ite ((strips_acceptSymbol _).bind fun _ => .ite (strips_destructor bound t.span) ?_)
      (strips_failExpected _)
  change Strips (if startsNamedParens (ahead.map Token.spanless) = true then _ else _) _
  rw [startsNamedParens_spanless]
  exact .ite (strips_constructorDecl bound t.span) (strips_typedMember bound t.span)

private theorem strips_parentClass : Strips parentClass parentClass :=
  (strips_acceptKeyword _).bind fun _ =>
    .ite (strips_identifier.bind fun parent => .pure (some parent)) (.pure (none : Option Ident))

/-- Neither do classes. -/
theorem strips_classDecl (bound : Nat) : Strips (classDecl bound) (classDecl bound) :=
  (strips_keyword _).bind fun start => strips_identifier.bind fun name =>
    strips_parentClass.bind fun parent => (strips_symbol _).bind fun _ =>
      (strips_manyUntil _ (strips_member bound) bound).bind fun members =>
        (strips_symbol _).bind fun close =>
          .pure (⟨name, parent, members, start.merge close⟩ : ClassDecl)

/-- Neither do programs. -/
theorem strips_program (bound : Nat) : Strips (program bound) (program bound) :=
  strips_peek.bind fun first =>
    (strips_manyUntil _ (strips_classDecl bound) bound).bind fun classes =>
      strips_peek.bind fun stop => .pure (⟨classes, first.span.merge stop.span⟩ : Program)

end Parser

/-! ## Token lists -/

/-- The cursor at the start of a list of kinds, without spans. -/
def Cursor.ofKinds (ks : List TokenKind) : Cursor :=
  ⟨ks.map (⟨·, .nowhere⟩), .nowhere, .nowhere⟩

/-- A stripped token list has nothing but its kinds. -/
theorem Cursor.spanless_ofTokens (ts : List Token) :
    (Cursor.ofTokens ts).spanless = .ofKinds (ts.map Token.kind) := by
  rw [ofKinds, List.map_map]
  rfl

/-- Programs and errors of token lists without spans depend on the kinds of the tokens only. -/
theorem Program.ofTokens_spanless (ts : List Token) :
    ((ofTokens ts).map spanless).mapError SyntaxError.spanless =
      (Parser.program (ts.length + 1)).run (.ofKinds (ts.map Token.kind)) := by
  rw [ofTokens, ← Cursor.spanless_ofTokens, Parser.run, Parser.run, Parser.strips_program]
  cases Parser.program (ts.length + 1) (Cursor.ofTokens ts) <;> rfl

end ClassCheck
