import ClassCheck.Proofs.SpelledExprs

/-!
# What is spelled is parsed: statements, members and classes

A statement that starts with a name is a declaration or starts with an expression, and a member
that starts with a name a constructor or something with a type. The parser looks ahead to tell
them apart, so the first part is about what the looks ahead find on tokens that spell a type or
an expression. What an alternative belongs to is settled by the token behind a statement.
-/

namespace ClassCheck

namespace Parser

/-! ## Declarations and expressions told apart -/

/-- On these tokens behind a name, the parser takes the name for a type. -/
def namedBehind (ks : List TokenKind) : Bool :=
  namesOrRefers (afterSizes (Cursor.ofKinds ks).tokens)

/-- Tokens that spell a type before a name start a declaration. -/
theorem startsDeclaration_of_type {type : WrittenType} {us : List TokenKind}
    (h : type.Spelled us) {rest : List TokenKind} (hrest : namedBehind rest = true) :
    startsDeclaration (Cursor.ofKinds (us ++ rest)).tokens = true := by
  induction h generalizing rest with
  | @primitive type => cases type <;> rfl
  | named => exact hrest
  | array _ _ _ ih =>
    rw [List.append_assoc]
    exact ih hrest
  | reference _ _ ih =>
    rw [List.append_assoc]
    exact ih rfl

/-- An expression in brackets behind a name is passed over only if it is a single number. -/
theorem namedBehind_bracket (e : Expr) {us : List TokenKind} (h : e.Spelled us)
    {rest : List TokenKind}
    (hrest : ∀ text, namedBehind (.symbol .lbracket :: .integer text :: rest) = false) :
    namedBehind (.symbol .lbracket :: (us ++ rest)) = false := by
  match e, us, h with
  | .int .., _, .int _ => exact hrest _
  | .float .., _, .float _ | .string .., _, .string _ | .bool .., _, .true | .bool .., _, .false
  | .nil .., _, .nil | .self .., _, .self | .ident .., _, .ident | .create .., _, .create _
  | .paren .., _, .paren _ | .array .., _, .array _ | .unary .., _, .unary _ _ => rfl
  | .field object .., _, .field _ hks =>
    rw [List.append_assoc]
    exact namedBehind_bracket object hks fun _ => rfl
  | .call receiver .., _, .call _ hks _ =>
    rw [List.append_assoc]
    exact namedBehind_bracket receiver hks fun _ => rfl
  | .index object .., _, .index _ hks _ =>
    rw [List.append_assoc]
    exact namedBehind_bracket object hks fun _ => rfl
  | .binary op left _ _, _, .binary _ hks _ _ =>
    rw [List.append_assoc]
    exact namedBehind_bracket left hks fun _ => by cases op <;> rfl

/-- Tokens that spell an expression do not, unless a name stands behind them. -/
theorem startsDeclaration_of_expr (e : Expr) {us : List TokenKind} (h : e.Spelled us)
    {rest : List TokenKind} (hrest : namedBehind rest = false) :
    startsDeclaration (Cursor.ofKinds (us ++ rest)).tokens = false := by
  match e, us, h with
  | .int .., _, .int _ | .float .., _, .float _ | .string .., _, .string _
  | .bool .., _, .true | .bool .., _, .false | .nil .., _, .nil | .self .., _, .self
  | .create .., _, .create _ | .paren .., _, .paren _ | .array .., _, .array _ => rfl
  | .ident .., _, .ident => exact hrest
  | .unary op _ _, _, .unary _ _ => cases op <;> rfl
  | .field object .., _, .field _ hks =>
    rw [List.append_assoc]
    exact startsDeclaration_of_expr object hks rfl
  | .call receiver .., _, .call _ hks _ =>
    rw [List.append_assoc]
    exact startsDeclaration_of_expr receiver hks rfl
  | .binary op left _ _, _, .binary _ hks _ _ =>
    rw [List.append_assoc]
    exact startsDeclaration_of_expr left hks (by cases op <;> rfl)
  | .index object position _, _, .index _ hks hms =>
    rw [List.append_assoc]
    refine startsDeclaration_of_expr object hks ?_
    rw [List.cons_append, List.append_assoc]
    exact namedBehind_bracket position hms fun _ => hrest

/-! ## Heads of statements -/

/-- Whether a type can start with the token. -/
def startsType : TokenKind → Bool
  | .identifier _ => true
  | k => k.namesPrimitive

/-- A type starts with a token that can start one. -/
theorem exists_head_of_type {type : WrittenType} {us : List TokenKind} (h : type.Spelled us) :
    ∃ k ks, us = k :: ks ∧ startsType k = true := by
  induction h with
  | @primitive type => exact ⟨_, _, rfl, by cases type <;> rfl⟩
  | named => exact ⟨_, _, rfl, rfl⟩
  | array _ _ _ ih | reference _ _ ih =>
    obtain ⟨k, ks, rfl, hk⟩ := ih
    exact ⟨k, _, rfl, hk⟩

/-- Whether a statement is told by this first token. -/
def opensStmt : TokenKind → Bool
  | .symbol .lbrace | .keyword .kwIf | .keyword .kwFor | .keyword .kwBreak
  | .keyword .kwContinue | .keyword .kwReturn => true
  | _ => false

private theorem opensStmt_of_startsType {k : TokenKind} (hk : startsType k = true) :
    opensStmt k = false := by
  cases k with
  | keyword word => cases word <;> first | rfl | cases hk
  | symbol _ => cases hk
  | _ => rfl

private theorem opensStmt_of_startsExpr {k : TokenKind} (hk : startsExpr k = true)
    (hbrace : k ≠ .symbol .lbrace) : opensStmt k = false := by
  cases k with
  | keyword word => cases word <;> first | rfl | cases hk
  | symbol sign => cases sign <;> first | rfl | exact absurd rfl hbrace
  | _ => rfl

/-- Whether a statement can start with the token. -/
def startsStmt (k : TokenKind) : Bool :=
  opensStmt k || k = .keyword .kwFinal || startsType k || startsExpr k

/-- A statement starts with a token that can start one. -/
theorem exists_head_of_stmt {s : Stmt} {us : List TokenKind} (h : s.Spelled us) :
    ∃ k ks, us = k :: ks ∧ startsStmt k = true := by
  cases h with
  | @declare ks ms isFinal type ds span htype hds =>
    cases isFinal with
    | true => exact ⟨_, _, rfl, rfl⟩
    | false =>
      obtain ⟨k, ks, rfl, hk⟩ := exists_head_of_type htype
      exact ⟨k, _, rfl, by simp [startsStmt, hk]⟩
  | assign _ _ he _ | call _ _ he =>
    obtain ⟨k, ks, rfl, hk, -⟩ := exists_head_of_spelled _ he
    exact ⟨k, _, rfl, by simp [startsStmt, hk]⟩
  | _ => exact ⟨_, _, rfl, rfl⟩

/-! ## Statements -/

/-- What may follow a declared name. -/
def EndsDeclarator (rest : List TokenKind) : Prop :=
  Stops 0 rest ∧ rest.head? ≠ some (.symbol .assign)

/-- A declared name is parsed with its initial value. -/
theorem yields_declarator {d : Declarator} {us rest : List TokenKind} {bound : Nat}
    (h : d.Spelled us) (hus : us.length ≤ bound) (hrest : EndsDeclarator rest) :
    (declarator bound).Yields us d.spanless rest := by
  cases h with
  | plain => exact goesOn_identifier (goesOn_skipSymbol hrest.2 (yields_pure rfl))
  | init he =>
    rw [List.length_cons, List.length_cons] at hus
    refine goesOn_identifier (goesOn_acceptSymbol ?_)
    refine (yields_expression he (by omega) hrest.1).last (yields_pure ?_)
    simp [Declarator.spanless]

private theorem yields_declarators {ds : List Declarator} {us : List TokenKind} {bound : Nat}
    (h : Separated .comma Declarator.Spelled us ds) (hus : us.length < bound)
    (rest : List TokenKind) :
    (declarators bound).Yields us (ds.map Declarator.spanless) (.symbol .semi :: rest) := by
  have hends : ∀ {k : TokenKind} {ms : List TokenKind}, closesExpr k = true →
      k ≠ .symbol .assign → EndsDeclarator (k :: ms) :=
    fun hk hassign => ⟨stops_of_closes hk 0 _, by simpa using hassign⟩
  refine yields_separated (F := EndsDeclarator) ?_ ?_ h hus.le (hends rfl (by simp)) (by simp)
    bound hus
  · exact fun us d rest hd hus hrest => yields_declarator hd hus hrest
  · exact fun ms => hends rfl (by simp)

/-- Declared names start with a name, and no arguments follow it. -/
theorem exists_name_of_declarators {ds : List Declarator} {us : List TokenKind}
    (h : Separated .comma Declarator.Spelled us ds) :
    ∃ name ks, us = .identifier name :: ks ∧ ks.head? ≠ some (.symbol .lparen) := by
  obtain ⟨ks, vs, d, _, rfl, -, hd, hvs⟩ := h.exists_first
  cases hd with
  | plain =>
    refine ⟨_, vs, rfl, ?_⟩
    obtain hvs | hvs := hvs <;> simp [hvs]
  | init => exact ⟨_, _, rfl, by simp⟩

/-- A declaration is parsed from its type to its semicolon. -/
theorem yields_declaration {type : WrittenType} {ks : List TokenKind} (htype : type.Spelled ks)
    {ds : List Declarator} {ms : List TokenKind} (hds : Separated .comma Declarator.Spelled ms ds)
    {isFinal : Bool} {span : Span} {bound : Nat} (hks : ks.length ≤ bound)
    (hms : ms.length < bound) (rest : List TokenKind) :
    (declaration bound).Yields
      ((if isFinal then [.keyword .kwFinal] else []) ++ ks ++ ms ++ [.symbol .semi])
      (Stmt.declare isFinal type ds span).spanless rest := by
  obtain ⟨name, ms', rfl, -⟩ := exists_name_of_declarators hds
  have htail : (do
      let type ← writtenType bound
      let names ← declarators bound
      let close ← symbol .semi
      pure (.declare isFinal type names (Span.nowhere.merge close)) : Parser Stmt).Yields
        (ks ++ (.identifier name :: ms' ++ [.symbol .semi]))
        (Stmt.declare isFinal type ds span).spanless rest := by
    refine (yields_writtenType htype hks).bind ((yields_declarators hds hms _).bind ?_)
    exact goesOn_symbol (yields_pure (by simp [Stmt.spanless]))
  rw [List.append_assoc, List.append_assoc]
  refine goesOn_peekAt rfl ?_
  cases isFinal with
  | true => exact goesOn_acceptKeyword htail
  | false =>
    obtain ⟨k, ks', rfl, hk⟩ := exists_head_of_type htype
    refine goesOn_skipKeyword ?_ htail
    rintro ⟨⟩
    cases hk

/-- The parser yields every statement that has at most so many tokens, where no alternative
follows that belongs to it. -/
def TakesStmts (p : Parser Stmt) (bound : Nat) : Prop :=
  ∀ (s : Stmt) (us rest : List TokenKind), s.Spelled us → us.length ≤ bound →
    (s.endsOpen = true → rest.head? ≠ some (.keyword .kwElse)) → p.Yields us s.spanless rest

/-- A statement that no token of its own opens is a declaration or starts with an expression. -/
theorem goesOn_statementOf {nested : Parser Stmt} {bound : Nat} {us rest : List TokenKind}
    (hus : ∃ k ks, us = k :: ks ∧ opensStmt k = false) {q : Parser Stmt}
    (h : (if startsDeclaration (Cursor.ofKinds (us ++ rest)).tokens then declaration bound
      else assignmentOrCall bound).GoesOn us q rest) :
    (statementOf nested bound).GoesOn us q rest := by
  obtain ⟨k, ks, rfl, hk⟩ := hus
  refine goesOn_peek ?_
  dsimp only
  split
  iterate 6 cases hk
  exact goesOn_peekAll h

/-- A declaration is parsed as a statement. -/
theorem yields_statement_declare {nested : Parser Stmt} {type : WrittenType}
    {ks : List TokenKind} (htype : type.Spelled ks) {ds : List Declarator} {ms : List TokenKind}
    (hds : Separated .comma Declarator.Spelled ms ds) {isFinal : Bool} {span : Span}
    {bound : Nat} (hks : ks.length ≤ bound) (hms : ms.length < bound) (rest : List TokenKind) :
    (statementOf nested bound).Yields
      ((if isFinal then [.keyword .kwFinal] else []) ++ ks ++ ms ++ [.symbol .semi])
      (Stmt.declare isFinal type ds span).spanless rest := by
  obtain ⟨name, ms', rfl, -⟩ := exists_name_of_declarators hds
  refine goesOn_statementOf ?_ ?_
  · cases isFinal with
    | true => exact ⟨_, _, rfl, rfl⟩
    | false =>
      obtain ⟨k, ks', rfl, hk⟩ := exists_head_of_type htype
      exact ⟨k, _, rfl, opensStmt_of_startsType hk⟩
  · rw [if_pos]
    · exact yields_declaration htype hds hks hms rest
    · cases isFinal with
      | true => rfl
      | false =>
        rw [List.append_assoc, List.append_assoc, List.append_assoc]
        exact startsDeclaration_of_type htype rfl

/-- A statement that starts with an expression is no declaration if the token behind it tells. -/
theorem goesOn_assignmentOrCall {nested : Parser Stmt} {e : Expr} {ks : List TokenKind}
    (he : e.Spelled ks) (hbrace : ks.head? ≠ some (.symbol .lbrace)) {bound : Nat}
    (hks : ks.length ≤ bound) {us rest : List TokenKind} (hclose : namedBehind (us ++ rest) = false)
    (hstops : Stops 0 (us ++ rest)) {q : Parser Stmt}
    (h : (do
      if ← acceptSymbol .assign then assignment bound .nowhere e.spanless
      else if e.isCall then
        let close ← symbol .semi
        pure (.call e.spanless (Span.nowhere.merge close))
      else fail .notAStatement .nowhere : Parser Stmt).GoesOn us q rest) :
    (statementOf nested bound).GoesOn (ks ++ us) q rest := by
  refine goesOn_statementOf ?_ ?_
  · obtain ⟨k, ks', rfl, hk, -⟩ := exists_head_of_spelled e he
    exact ⟨k, _, rfl, opensStmt_of_startsExpr hk (by simpa using hbrace)⟩
  · rw [List.append_assoc, if_neg (by simp [startsDeclaration_of_expr e he hclose])]
    refine goesOn_peekAt rfl ((yields_expression he hks hstops).bind ?_)
    simpa using h

private theorem yields_direction (d : Direction) (rest : List TokenKind) :
    direction.Yields [.keyword d.keyword] d rest := by
  cases d <;> rfl

section

variable {nested : Parser Stmt} {b : Nat} (hn : nested.TakesStmts b)

include hn

/-- A block is parsed if its statements are. -/
theorem yields_blockOf {ss : List Stmt} {us : List TokenKind} (h : Repeated Stmt.Spelled us ss)
    (hus : us.length ≤ b) {rounds : Nat} (hrounds : us.length < rounds) (rest : List TokenKind) :
    (blockOf nested rounds).Yields (.symbol .lbrace :: (us ++ [.symbol .rbrace]))
      ⟨ss.map Stmt.spanless, .nowhere⟩ rest := by
  have hstmts : (manyUntil endsBlock nested rounds).Yields us (ss.map Stmt.spanless)
      (.symbol .rbrace :: rest) := by
    refine yields_manyUntil (F := fun rest => rest.head? ≠ some (.keyword .kwElse)) ?_ ?_ h hus
      (by simp) rfl rounds hrounds
    · exact fun us s rest hs hus hrest => hn s us rest hs hus fun _ => hrest
    · intro us s hs
      obtain ⟨k, ks, rfl, hk⟩ := exists_head_of_stmt hs
      refine ⟨k, ks, rfl, ?_, fun _ => ?_⟩
      · rw [endsBlock, Bool.or_eq_false_iff, decide_eq_false_iff_not, decide_eq_false_iff_not]
        constructor <;>
          · rintro rfl
            cases hk
      · rintro ⟨⟩
        cases hk
  exact goesOn_symbol (hstmts.bind (goesOn_symbol (yields_pure (by simp))))

/-- Statements of more tokens are parsed if the nested ones are. -/
theorem takesStmts_statementOf : (statementOf nested (b + 1)).TakesStmts (b + 1) := by
  intro s us rest h hus hrest
  cases h with
  | declare htype hds =>
    simp only [List.length_append, List.length_cons] at hus
    exact yields_statement_declare htype hds (by omega) (by omega) rest
  | assign hplace hbrace htarget hvalue =>
    simp only [List.length_append, List.length_cons] at hus
    refine goesOn_assignmentOrCall htarget hbrace (by omega) rfl (stops_of_closes rfl 0 _) ?_
    refine goesOn_acceptSymbol ?_
    rw [if_pos rfl, assignment, if_pos (by simpa using hplace)]
    refine (yields_expression hvalue (by omega) (stops_of_closes rfl 0 _)).bind ?_
    exact goesOn_symbol (yields_pure (by simp [Stmt.spanless]))
  | call hcall hbrace hinvocation =>
    simp only [List.length_append, List.length_cons] at hus
    refine goesOn_assignmentOrCall hinvocation hbrace (by omega) rfl (stops_of_closes rfl 0 _) ?_
    refine goesOn_skipSymbol (by simp) ?_
    rw [if_neg (by simp), if_pos hcall]
    exact goesOn_symbol (yields_pure (by simp [Stmt.spanless]))
  | ifThen hcondition hthen =>
    simp only [List.length_append, List.length_cons] at hus
    refine goesOn_peek (goesOn_advance (by simp) ?_)
    refine (yields_expression hcondition (by omega) (stops_of_closes rfl 0 _)).bind ?_
    refine goesOn_keyword ((hn _ _ _ hthen (by omega) fun _ => hrest rfl).last ?_)
    refine goesOn_skipKeyword (hrest rfl) (goesOn_lastSpan (yields_pure ?_))
    simp [Stmt.spanless]
  | ifElse hcondition hclosed hthen helse =>
    simp only [List.length_append, List.length_cons] at hus
    refine goesOn_peek (goesOn_advance (by simp) ?_)
    refine (yields_expression hcondition (by omega) (stops_of_closes rfl 0 _)).bind ?_
    refine goesOn_keyword ((hn _ _ _ hthen (by omega) ?_).bind (goesOn_acceptKeyword ?_))
    · simp [hclosed]
    · refine (hn _ _ _ helse (by omega) hrest).last (goesOn_lastSpan (yields_pure ?_))
      simp [Stmt.spanless]
  | loop hfirst hlast hbody =>
    simp only [List.length_append, List.length_cons] at hus
    refine goesOn_peek (goesOn_advance (by simp) (goesOn_identifier (goesOn_symbol ?_)))
    refine (yields_expression hfirst (by omega) (stops_of_closes rfl 0 _)).bind ?_
    refine (yields_direction _ _).bind ?_
    refine (yields_expression hlast (by omega) (stops_of_closes rfl 0 _)).bind ?_
    refine goesOn_keyword ((hn _ _ _ hbody (by omega) hrest).last (yields_pure ?_))
    simp [Stmt.spanless, Ident.spanless]
  | breakLoop => rfl
  | continueLoop => rfl
  | returnNothing => rfl
  | returnValue hvalue =>
    simp only [List.length_append, List.length_cons] at hus
    refine goesOn_peek (goesOn_advance (by simp) ?_)
    obtain ⟨k, ks, rfl, hk, -⟩ := exists_head_of_spelled _ hvalue
    refine goesOn_peekAt (k := k) rfl ?_
    rw [if_neg (by rintro rfl; cases hk)]
    refine (yields_expression hvalue (by omega) (stops_of_closes rfl 0 _)).bind ?_
    exact goesOn_symbol (yields_pure (by simp [Stmt.spanless]))
  | block hstmts =>
    simp only [List.length_append, List.length_cons] at hus
    refine goesOn_peek ((yields_blockOf hn hstmts (by omega) (by omega) rest).last (yields_pure ?_))
    simp [Stmt.spanless, Stmt.spanlessAll_eq_map]

end

/-- So statements are parsed, however many tokens they have. -/
theorem takesStmts_statement (bound : Nat) : (statement bound).TakesStmts bound := by
  induction bound with
  | zero =>
    intro s us rest h hus
    exact absurd (List.length_eq_zero_iff.mp (Nat.le_zero.mp hus)) h.ne_nil
  | succ bound ih => exact takesStmts_statementOf ih

private theorem yields_block {body : Block} {us : List TokenKind} (h : body.Spelled us)
    {bound : Nat} (hus : us.length ≤ bound) (rest : List TokenKind) :
    (block bound).Yields us body.spanless rest := by
  cases h with
  | mk hstmts =>
    simp only [List.length_append, List.length_cons] at hus
    exact yields_blockOf (takesStmts_statement bound) hstmts (by omega) (by omega) rest

/-! ## Members -/

private theorem yields_names {ids : List Ident} {us : List TokenKind} {bound : Nat}
    (h : Separated .comma Ident.Spelled us ids) (hus : us.length < bound) {rest : List TokenKind}
    (hrest : rest.head? ≠ some (.symbol .comma)) :
    (separated .comma identifier bound).Yields us (ids.map Ident.spanless) rest := by
  refine yields_separated (F := fun _ => True) ?_ (fun _ => trivial) h hus.le trivial hrest bound
    hus
  rintro us id rest rfl - -
  rfl

/-- Parameters of one type are parsed as a group. -/
theorem yields_paramGroup {ps : List Param} {us : List TokenKind} {bound : Nat}
    (h : Param.GroupSpelled us ps) (hus : us.length ≤ bound) {rest : List TokenKind}
    (hrest : rest.head? ≠ some (.symbol .comma)) :
    (paramGroup bound).Yields us (ps.map Param.spanless) rest := by
  cases h with
  | @mk ks ms _ htypes hnames =>
    rw [List.length_append] at hus
    obtain ⟨_, vs, name, ids, rfl, hps, rfl, -⟩ := hnames.exists_first
    cases ps with
    | nil => cases hps
    | cons p ps =>
      -- The parameters share their type up to spans, since it is parsed only once.
      have htype : ∀ p' ∈ p :: ps, (writtenType bound).Yields ks p'.type.spanless
          (.identifier name.name :: vs ++ rest) :=
        fun p' hp' => yields_writtenType (htypes p' hp') (by omega)
      have hfirst := htype p List.mem_cons_self
      have hpos : 0 < ks.length := by
        obtain ⟨k, ks', rfl, -⟩ := exists_head_of_type (htypes p List.mem_cons_self)
        simp
      refine hfirst.bind ((yields_names hnames (by omega) hrest).last (yields_pure ?_))
      rw [List.map_map, List.map_map]
      refine List.map_congr_left fun p' hp' => ?_
      simp [Param.spanless, Ident.spanless, hfirst.unique (htype p' hp')]

private theorem exists_head_of_paramGroup {ps : List Param} {us : List TokenKind}
    (h : Param.GroupSpelled us ps) : ∃ k ks, us = k :: ks ∧ startsType k = true := by
  cases h with
  | @mk ks ms _ htypes hnames =>
    obtain ⟨_, _, _, _, -, hps, -, -⟩ := hnames.exists_first
    cases ps with
    | nil => cases hps
    | cons p ps =>
      obtain ⟨k, ks, rfl, hk⟩ := exists_head_of_type (htypes p List.mem_cons_self)
      exact ⟨k, _, rfl, hk⟩

/-- Parameters are parsed group by group. -/
theorem yields_params {ps : List Param} {us : List TokenKind} {bound : Nat}
    (h : Param.ListSpelled us ps) (hus : us.length ≤ bound) (rest : List TokenKind) :
    (params bound).Yields us (ps.map Param.spanless) rest := by
  cases h with
  | @mk ks groups hgroups =>
    simp only [List.length_append, List.length_cons] at hus
    have hclose : ∀ gs : List (List Param), gs = groups.map (List.map Param.spanless) → (do
        let _ ← symbol .rparen
        pure gs.flatten : Parser (List Param)).Yields [.symbol .rparen]
          (groups.flatten.map Param.spanless) rest := by
      rintro _ rfl
      exact goesOn_symbol (yields_pure List.map_flatten.symm)
    refine goesOn_symbol ?_
    cases hgroups with
    | none => exact goesOn_peek (hclose [] rfl)
    | some hgroups =>
      have hks : ks.length < bound := by omega
      have hall : (separated .semi (paramGroup bound) bound).Yields ks
          (groups.map (List.map Param.spanless)) (.symbol .rparen :: rest) := by
        refine yields_separated (F := fun rest => rest.head? ≠ some (.symbol .comma)) ?_
          (fun _ => by simp) hgroups hks.le (by simp) (by simp) bound hks
        exact fun us ps rest hps hus hrest => yields_paramGroup hps hus hrest
      obtain ⟨_, vs, group, _, rfl, -, hgroup, -⟩ := hgroups.exists_first
      obtain ⟨k, ks, rfl, hk⟩ := exists_head_of_paramGroup hgroup
      refine goesOn_peekAt (k := k) rfl ?_
      dsimp only
      rw [if_neg (by rintro rfl; cases hk)]
      exact hall.bind (hclose _ rfl)

/-- Modifiers are parsed up to the first token that is none. -/
theorem yields_modifiers {ks rest : List TokenKind}
    (hks : ∀ k ∈ ks, k = .keyword .kwStatic ∨ k = .keyword .kwFinal)
    (hstatic : rest.head? ≠ some (.keyword .kwStatic))
    (hfinal : rest.head? ≠ some (.keyword .kwFinal)) (rounds : Nat) (hrounds : ks.length < rounds)
    (m : Modifiers) :
    (modifiers rounds m).Yields ks ⟨m.isStatic || .keyword .kwStatic ∈ ks,
      m.isFinal || .keyword .kwFinal ∈ ks⟩ rest := by
  obtain ⟨rounds, rfl⟩ : ∃ n, rounds = n + 1 := ⟨rounds - 1, by omega⟩
  induction ks generalizing rounds m with
  | nil => exact goesOn_skipKeyword hstatic (goesOn_skipKeyword hfinal (yields_pure (by simp)))
  | cons k ks ih =>
    rw [List.length_cons] at hrounds
    obtain ⟨rounds, rfl⟩ : ∃ n, rounds = n + 1 := ⟨rounds - 1, by omega⟩
    have htail := fun m =>
      ih (fun k hk => hks k (List.mem_cons_of_mem _ hk)) m rounds (by omega)
    obtain rfl | rfl := hks k List.mem_cons_self
    · refine goesOn_acceptKeyword ?_
      simpa [Yields] using htail ⟨true, m.isFinal⟩
    · refine goesOn_skipKeyword (by simp) (goesOn_acceptKeyword ?_)
      simpa [Yields] using htail ⟨m.isStatic, true⟩

/-- Modifiers are told by the words among their tokens. -/
theorem modifiers_eq_of_spelled {ks : List TokenKind} {m : Modifiers}
    (h : Modifiers.Spelled ks m) :
    m = ⟨decide (.keyword .kwStatic ∈ ks), decide (.keyword .kwFinal ∈ ks)⟩ := by
  obtain ⟨isStatic, isFinal⟩ := m
  rw [Modifiers.mk.injEq]
  exact ⟨Bool.eq_iff_iff.mpr (h.isStatic.trans decide_eq_true_iff.symm),
    Bool.eq_iff_iff.mpr (h.isFinal.trans decide_eq_true_iff.symm)⟩

/-- The result of a method is parsed before a name. -/
theorem yields_resultType {result : Option WrittenType} {us : List TokenKind}
    (h : ResultSpelled us result) {bound : Nat} (hus : us.length ≤ bound) {name : String}
    {rest : List TokenKind} :
    (resultType bound).Yields us (result.map WrittenType.spanless)
      (.identifier name :: rest) := by
  cases h with
  | void => rfl
  | type htype =>
    obtain ⟨k, ks, rfl, hk⟩ := exists_head_of_type htype
    refine goesOn_skipKeyword ?_ ((yields_writtenType htype hus).last (yields_pure rfl))
    rintro ⟨⟩
    cases hk

/-- A name without a parenthesis behind it starts no constructor. -/
theorem startsNamedParens_of_name {name : String} {rest : List TokenKind}
    (hrest : rest.head? ≠ some (.symbol .lparen)) :
    startsNamedParens (Cursor.ofKinds (.identifier name :: rest)).tokens = false := by
  cases rest with
  | nil => rfl
  | cons k ks =>
    cases k with
    | symbol sign => cases sign <;> first | rfl | exact absurd rfl hrest
    | _ => rfl

/-- A type with something other than a parenthesis behind it is not taken for the name of a
constructor. -/
theorem startsNamedParens_of_type {type : WrittenType} {us : List TokenKind}
    (h : type.Spelled us) {rest : List TokenKind}
    (hrest : rest.head? ≠ some (.symbol .lparen)) :
    startsNamedParens (Cursor.ofKinds (us ++ rest)).tokens = false := by
  induction h generalizing rest with
  | primitive => rfl
  | named => exact startsNamedParens_of_name hrest
  | array _ _ _ ih | reference _ _ ih =>
    rw [List.append_assoc]
    exact ih (by simp)

section

variable {ks ms : List TokenKind} {m : Modifiers} {result : Option WrittenType}
  (hm : Modifiers.Spelled ks m) (hresult : ResultSpelled ms result)

include hresult

private theorem exists_head_of_result :
    ∃ k vs, ms = k :: vs ∧ (k = .keyword .kwVoid ∨ startsType k = true) := by
  cases hresult with
  | void => exact ⟨_, _, rfl, .inl rfl⟩
  | type htype =>
    obtain ⟨k, vs, rfl, hk⟩ := exists_head_of_type htype
    exact ⟨k, vs, rfl, .inr hk⟩

omit hresult in
private theorem startsMember_of_result {k : TokenKind}
    (hk : k = .keyword .kwVoid ∨ startsType k = true) :
    k.startsMember = true ∧ k ≠ .symbol .tilde := by
  obtain rfl | hk := hk
  · exact ⟨rfl, by simp⟩
  · cases k with
    | keyword word => cases word <;> first | exact ⟨rfl, by simp⟩ | cases hk
    | identifier name => exact ⟨rfl, by simp⟩
    | _ => cases hk

include hm

private theorem exists_head_of_typed :
    ∃ k vs, ks ++ ms = k :: vs ∧ k.startsMember = true ∧ k ≠ .symbol .tilde := by
  cases ks with
  | nil =>
    obtain ⟨l, ls, hls, hl⟩ := exists_head_of_result hresult
    exact ⟨l, ls, hls, startsMember_of_result hl⟩
  | cons k ks =>
    refine ⟨k, ks ++ ms, rfl, ?_⟩
    obtain rfl | rfl := hm.words k List.mem_cons_self <;> exact ⟨rfl, by simp⟩

/-- Modifiers and a type are followed by a name, and are read as such. -/
theorem goesOn_typedMember {bound : Nat} (hks : ks.length < bound) (hms : ms.length ≤ bound)
    {name : String} {us rest : List TokenKind} {q : Parser Member}
    (h : (if startsNamedParens (Cursor.ofKinds (.identifier name :: us ++ rest)).tokens then
      if m.isFinal then fail .finalMethod .nowhere
      else methodDecl bound .nowhere m.isStatic (result.map WrittenType.spanless)
      else match result.map WrittenType.spanless with
        | some type => attributeDecl bound .nowhere m type
        | none => fail .voidAttribute .nowhere).GoesOn (.identifier name :: us) q rest) :
    (member bound).GoesOn (ks ++ ms ++ .identifier name :: us) q rest := by
  obtain ⟨k, vs, hvs, hmember, htilde⟩ := exists_head_of_typed hm hresult
  have hparens : startsNamedParens
      (Cursor.ofKinds (ks ++ ms ++ .identifier name :: us ++ rest)).tokens = false := by
    cases ks with
    | nil =>
      rw [List.nil_append, List.append_assoc]
      cases hresult with
      | void => rfl
      | type htype => exact startsNamedParens_of_type htype (by simp)
    | cons k ks => obtain rfl | rfl := hm.words k List.mem_cons_self <;> rfl
  refine goesOn_peekAt (k := k) (by rw [hvs]; rfl) (goesOn_peekAll ?_)
  rw [if_pos hmember]
  refine goesOn_skipSymbol (by rw [hvs]; simpa using htilde) ?_
  rw [if_neg (by simp), if_neg (Bool.eq_false_iff.mp hparens), List.append_assoc]
  have hwords : (modifiers bound ⟨false, false⟩).Yields ks m
      (ms ++ .identifier name :: us ++ rest) := by
    obtain ⟨l, ls, rfl, hl⟩ := exists_head_of_result hresult
    rw [modifiers_eq_of_spelled hm]
    refine yields_modifiers hm.words ?_ ?_ bound hks ⟨false, false⟩
    all_goals
      rintro ⟨⟩
      obtain hl | hl := hl <;> cases hl
  exact hwords.bind ((yields_resultType hresult hms).bind (goesOn_peekAll h))

end

/-- A member of any sort is parsed from its tokens. -/
theorem yields_member {m : Member} {us : List TokenKind} (h : m.Spelled us) {bound : Nat}
    (hus : us.length ≤ bound) (rest : List TokenKind) :
    (member bound).Yields us m.spanless rest := by
  match m, us, h with
  | .attribute ⟨_, _, _, _⟩ _, _, .attribute hm htype hds =>
    simp only [List.length_append, List.length_cons] at hus
    have hdecls := yields_declarators hds (by omega : _ < bound) rest
    obtain ⟨name, vs, rfl, hvs⟩ := exists_name_of_declarators hds
    rw [List.append_assoc, List.cons_append]
    refine goesOn_typedMember hm (.type htype) (by omega) (by omega) ?_
    have hparens : startsNamedParens
        (Cursor.ofKinds (.identifier name :: (vs ++ [.symbol .semi]) ++ rest)).tokens = false := by
      refine startsNamedParens_of_name ?_
      cases vs with
      | nil => simp
      | cons k vs => exact hvs
    rw [if_neg (Bool.eq_false_iff.mp hparens), ← List.cons_append]
    refine hdecls.bind (goesOn_symbol (yields_pure ?_))
    simp [Member.spanless, AttributeDecl.spanless]
  | .method ⟨_, _, _, _, _⟩ _, _, .method hm hresult hparams hbody =>
    simp only [List.length_append, List.length_cons] at hus
    refine goesOn_typedMember hm hresult (by omega) (by omega) ?_
    cases hparams with
    | mk hgroups =>
      refine goesOn_identifier ((yields_params (.mk hgroups) (by omega) _).bind ?_)
      refine (yields_block hbody (by omega) rest).last (yields_pure ?_)
      simp [Member.spanless, MethodDecl.spanless, Block.spanless]
  | .ctor ⟨_, _, _⟩ _, _, .ctor hparams hbody =>
    simp only [List.length_append, List.length_cons] at hus
    cases hparams with
    | mk hgroups =>
      refine goesOn_peek (goesOn_peekAll (goesOn_skipSymbol (by simp) ?_))
      refine goesOn_identifier ((yields_params (.mk hgroups) (by omega) _).bind ?_)
      refine (yields_block hbody (by omega) rest).last (yields_pure ?_)
      simp [Member.spanless, CtorDecl.spanless, Block.spanless]
  | .dtor ⟨_, _⟩ _, _, .dtor hbody =>
    simp only [List.length_cons] at hus
    refine goesOn_peek (goesOn_peekAll (goesOn_acceptSymbol (goesOn_identifier
      (goesOn_symbol (goesOn_symbol ?_)))))
    exact (yields_block hbody (by omega) rest).last
      (yields_pure (by simp [Member.spanless, DtorDecl.spanless, Block.spanless]))

/-! ## Classes and programs -/

/-- A member does not start with a token that ends a class. -/
theorem exists_head_of_member {m : Member} {us : List TokenKind} (h : m.Spelled us) :
    ∃ k ks, us = k :: ks ∧ endsClass k = false := by
  have htyped : ∀ {ks ms vs : List TokenKind} {m : Modifiers} {result : Option WrittenType},
      Modifiers.Spelled ks m → ResultSpelled ms result →
      ∃ k ls, ks ++ ms ++ vs = k :: ls ∧ endsClass k = false := by
    intro ks ms vs m result hm hresult
    obtain ⟨k, ls, hls, hk, -⟩ := exists_head_of_typed hm hresult
    refine ⟨k, ls ++ vs, by rw [hls, List.cons_append], ?_⟩
    rw [endsClass, decide_eq_false_iff_not]
    rintro rfl
    cases hk
  match m, us, h with
  | .attribute ⟨_, _, _, _⟩ _, _, .attribute hm htype _ =>
    rw [List.append_assoc]
    exact htyped hm (.type htype)
  | .method ⟨_, _, _, _, _⟩ _, _, .method hm hresult _ _ => exact htyped hm hresult
  | .ctor ⟨_, _, _⟩ _, _, .ctor _ _ => exact ⟨_, _, rfl, rfl⟩
  | .dtor ⟨_, _⟩ _, _, .dtor _ => exact ⟨_, _, rfl, rfl⟩

private theorem yields_parentClass {parent : Option Ident} {us : List TokenKind}
    (h : ParentSpelled us parent) (rest : List TokenKind) :
    parentClass.Yields us (parent.map Ident.spanless) (.symbol .lbrace :: rest) := by
  cases h <;> rfl

/-- A class is parsed from its tokens. -/
theorem yields_classDecl {c : ClassDecl} {us : List TokenKind} (h : c.Spelled us) {bound : Nat}
    (hus : us.length ≤ bound) (rest : List TokenKind) :
    (classDecl bound).Yields us c.spanless rest := by
  cases h with
  | @mk ks ms name parent members span hparent hmembers =>
    simp only [List.length_append, List.length_cons] at hus
    have hms : ms.length < bound := by omega
    have hall : (manyUntil endsClass (member bound) bound).Yields ms
        (members.map Member.spanless) (.symbol .rbrace :: rest) := by
      refine yields_manyUntil (F := fun _ => True) ?_ ?_ hmembers hms.le trivial rfl bound hms
      · exact fun us m rest hm hus _ => yields_member hm hus rest
      · intro us m hm
        obtain ⟨k, ks, rfl, hk⟩ := exists_head_of_member hm
        exact ⟨k, ks, rfl, hk, fun _ => trivial⟩
    refine goesOn_keyword (goesOn_identifier ((yields_parentClass hparent _).bind ?_))
    refine goesOn_symbol (hall.bind (goesOn_symbol (yields_pure ?_)))
    simp [ClassDecl.spanless, Ident.spanless]

/-- A program ends where its tokens do or at an end of file. -/
theorem yields_program {p : Program} {us : List TokenKind} (h : p.Spelled us) {bound : Nat}
    (hus : us.length < bound) {rest : List TokenKind} (hrest : rest.head?.getD .eof = .eof) :
    (program bound).Yields us p.spanless rest := by
  have hall : (manyUntil endsProgram (classDecl bound) bound).Yields us
      (p.classes.map ClassDecl.spanless) rest := by
    refine yields_manyUntil (F := fun _ => True) ?_ ?_ h hus.le trivial ?_ bound hus
    rotate_right
    · simp [endsProgram, hrest]
    · exact fun us c rest hc hus _ => yields_classDecl hc hus rest
    · rintro us c ⟨⟩
      exact ⟨_, _, rfl, rfl, fun _ => trivial⟩
  exact goesOn_peekAt rfl
    (hall.last (goesOn_peekAt rfl (yields_pure (by simp [Program.spanless]))))

end Parser

end ClassCheck
