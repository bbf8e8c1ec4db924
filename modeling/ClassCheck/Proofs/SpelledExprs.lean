import ClassCheck.Proofs.Grammar
import ClassCheck.Proofs.LayoutParsing

/-!
# What is spelled is parsed: types and expressions

On tokens that spell a tree, a parser yields that tree, without spans, and stops behind them.
Whether it stops depends on the token that follows, so each statement says which tokens may. The
loops of the parser build their trees from the left: after the tokens of a left part the loop
goes on with that part, and with more rounds left than there are tokens to come. So no bound is
used up on the way.
-/

namespace ClassCheck

namespace Parser

/-- Over the first tokens, with the rest behind them, a parser goes on as another one. -/
def GoesOn {α : Type} (p : Parser α) (us : List TokenKind) (q : Parser α)
    (rest : List TokenKind) : Prop :=
  p (.ofKinds (us ++ rest)) = q (.ofKinds rest)

/-- From the first tokens, with the rest behind them, a parser yields a value. -/
def Yields {α : Type} (p : Parser α) (us : List TokenKind) (a : α) (rest : List TokenKind) :
    Prop :=
  p.GoesOn us (pure a) rest

section

variable {α β : Type} {q : Parser α} {us vs rest : List TokenKind}

private theorem goesOn_refl : q.GoesOn [] q rest := rfl

/-- Parsers that go on as one another can be put in a row. -/
theorem GoesOn.trans {p r : Parser α} (hp : p.GoesOn us r (vs ++ rest))
    (hr : r.GoesOn vs q rest) : p.GoesOn (us ++ vs) q rest := by
  rw [GoesOn, List.append_assoc, hp, hr]

/-- The other parser reads nothing more. -/
theorem GoesOn.last {p r : Parser α} (hp : p.GoesOn us r rest) (hr : r.GoesOn [] q rest) :
    p.GoesOn us q rest := by
  rw [GoesOn, hp]
  exact hr

/-- A value is yielded from no tokens. -/
theorem yields_pure {a b : α} (h : a = b) : (pure a : Parser α).Yields [] b rest := by
  subst h
  rfl

/-- A parser behind one that yields goes on with what was yielded. -/
theorem Yields.bind {p : Parser β} {f : β → Parser α} {b : β} (hp : p.Yields us b (vs ++ rest))
    (hf : (f b).GoesOn vs q rest) : (p >>= f).GoesOn (us ++ vs) q rest := by
  rw [GoesOn, bind_apply, List.append_assoc, hp, pure_apply]
  exact hf

/-- The last parser that reads a token. -/
theorem Yields.last {p : Parser β} {f : β → Parser α} {b : β} (hp : p.Yields us b rest)
    (hf : (f b).GoesOn [] q rest) : (p >>= f).GoesOn us q rest := by
  rw [GoesOn, bind_apply, hp, pure_apply]
  exact hf

/-- From the same tokens a parser yields one value only. -/
theorem Yields.unique {p : Parser α} {a b : α} (ha : p.Yields us a rest)
    (hb : p.Yields us b rest) : a = b := by
  rw [Yields, GoesOn] at ha hb
  rw [ha, pure_apply, pure_apply] at hb
  cases hb
  rfl

private theorem goesOn_bind_assoc {γ : Type} {p : Parser γ} {g : γ → Parser β} {f : β → Parser α}
    (h : ((p >>= g) >>= f).GoesOn us q rest) :
    (p >>= fun c => g c >>= f).GoesOn us q rest := by
  rw [GoesOn] at h ⊢
  rw [← h, bind_apply, bind_apply, bind_apply]
  cases p (.ofKinds (us ++ rest)) <;> rfl

/-! ## Single tokens -/

/-- Looking at the token ahead goes on with that token, without its place. -/
theorem goesOn_peekAt {k : TokenKind} {f : Token → Parser α}
    (hk : (us ++ rest).head?.getD .eof = k) (h : (f ⟨k, .nowhere⟩).GoesOn us q rest) :
    (peek >>= f).GoesOn us q rest := by
  subst hk
  rw [GoesOn] at h ⊢
  rw [← h, bind_apply, peek]
  cases us ++ rest <;> rfl

/-- The same where the token ahead is the first of those to come. -/
theorem goesOn_peek {k : TokenKind} {f : Token → Parser α}
    (h : (f ⟨k, .nowhere⟩).GoesOn (k :: us) q rest) : (peek >>= f).GoesOn (k :: us) q rest :=
  goesOn_peekAt rfl h

/-- Moving over a token leaves those behind it. -/
theorem goesOn_advance {k : TokenKind} {f : Token → Parser α} (hk : k ≠ .eof)
    (h : (f ⟨k, .nowhere⟩).GoesOn us q rest) : (advance >>= f).GoesOn (k :: us) q rest := by
  have hadvance : (Cursor.ofKinds (k :: us ++ rest)).advance = .ofKinds (us ++ rest) := if_neg hk
  rw [GoesOn, bind_apply, advance, hadvance]
  exact h

/-- The place of the token consumed last is nowhere, as all places are. -/
theorem goesOn_lastSpan {f : Span → Parser α} (h : (f .nowhere).GoesOn us q rest) :
    (lastSpan >>= f).GoesOn us q rest :=
  h

/-- Looking at all tokens ahead moves over none of them. -/
theorem goesOn_peekAll {f : List Token → Parser α}
    (h : (f (Cursor.ofKinds (us ++ rest)).tokens).GoesOn us q rest) :
    (peekAll >>= f).GoesOn us q rest :=
  h

/-- A token that is asked for is moved over if it is there. -/
theorem goesOn_expect {k : TokenKind} {f : Span → Parser α} (hk : k ≠ .eof)
    (h : (f .nowhere).GoesOn us q rest) : (expect k >>= f).GoesOn (k :: us) q rest := by
  have hexpect : (expect k).Yields [k] .nowhere (us ++ rest) := by
    refine goesOn_peek ?_
    rw [if_pos rfl]
    exact goesOn_advance hk (yields_pure rfl)
  exact hexpect.bind h

/-- So is a sign. -/
theorem goesOn_symbol {sign : Symbol} {f : Span → Parser α} (h : (f .nowhere).GoesOn us q rest) :
    (symbol sign >>= f).GoesOn (.symbol sign :: us) q rest :=
  goesOn_expect (by simp) h

/-- So is a word. -/
theorem goesOn_keyword {word : Keyword} {f : Span → Parser α}
    (h : (f .nowhere).GoesOn us q rest) :
    (keyword word >>= f).GoesOn (.keyword word :: us) q rest :=
  goesOn_expect (by simp) h

/-- A token that may be there is moved over if it is. -/
theorem goesOn_accept {k : TokenKind} {f : Bool → Parser α} (hk : k ≠ .eof)
    (h : (f true).GoesOn us q rest) :
    (accept k >>= f).GoesOn (k :: us) q rest := by
  have haccept : (accept k).Yields [k] true (us ++ rest) := by
    refine goesOn_peek ?_
    rw [if_pos rfl]
    exact goesOn_advance hk (yields_pure rfl)
  exact haccept.bind h

/-- So is a sign that may be there. -/
theorem goesOn_acceptSymbol {sign : Symbol} {f : Bool → Parser α}
    (h : (f true).GoesOn us q rest) :
    (acceptSymbol sign >>= f).GoesOn (.symbol sign :: us) q rest :=
  goesOn_accept (by simp) h

/-- So is a word that may be there. -/
theorem goesOn_acceptKeyword {word : Keyword} {f : Bool → Parser α}
    (h : (f true).GoesOn us q rest) :
    (acceptKeyword word >>= f).GoesOn (.keyword word :: us) q rest :=
  goesOn_accept (by simp) h

/-- If another token is there, nothing is moved over. -/
theorem goesOn_skip {k : TokenKind} {f : Bool → Parser α} (hk : k ≠ .eof)
    (hhead : (us ++ rest).head? ≠ some k) (h : (f false).GoesOn us q rest) :
    (accept k >>= f).GoesOn us q rest := by
  have haccept : (accept k).Yields [] false (us ++ rest) := by
    have hcurrent : (Cursor.ofKinds (us ++ rest)).current.kind ≠ k := by
      cases hks : us ++ rest with
      | nil => exact hk.symm
      | cons l ls =>
        rw [hks] at hhead
        exact fun hl => hhead (congrArg some hl)
    rw [Yields, GoesOn, List.nil_append, accept_apply, if_neg hcurrent, pure_apply]
  exact haccept.bind h

/-- The same for a sign that is not there. -/
theorem goesOn_skipSymbol {sign : Symbol} {f : Bool → Parser α}
    (hhead : (us ++ rest).head? ≠ some (.symbol sign)) (h : (f false).GoesOn us q rest) :
    (acceptSymbol sign >>= f).GoesOn us q rest :=
  goesOn_skip (by simp) hhead h

/-- The same for a word that is not there. -/
theorem goesOn_skipKeyword {word : Keyword} {f : Bool → Parser α}
    (hhead : (us ++ rest).head? ≠ some (.keyword word)) (h : (f false).GoesOn us q rest) :
    (acceptKeyword word >>= f).GoesOn us q rest :=
  goesOn_skip (by simp) hhead h

/-- A name is moved over and handed on. -/
theorem goesOn_identifier {name : String} {f : Ident → Parser α}
    (h : (f ⟨name, .nowhere⟩).GoesOn us q rest) :
    (identifier >>= f).GoesOn (.identifier name :: us) q rest :=
  h

/-- A value that can be read from a text is handed on. -/
theorem goesOn_lift {value : Except SyntaxFault β} {b : β} {span : Span} {f : β → Parser α}
    (hvalue : value = .ok b) (h : (f b).GoesOn us q rest) :
    (lift value span >>= f).GoesOn us q rest := by
  subst hvalue
  exact h

end

/-! ## Sequences -/

section

variable {α : Type} {R : List TokenKind → α → Prop} {item : Parser α} {g : α → α}
  {F : List TokenKind → Prop} {bound : Nat}

/-- Items with a sign between them, where an item may be followed by the sign and by what follows
the whole. -/
theorem yields_separated {sign : Symbol}
    (hitem : ∀ us a rest, R us a → us.length ≤ bound → F rest → item.Yields us (g a) rest)
    (hsign : ∀ ms, F (.symbol sign :: ms)) {us : List TokenKind} {as : List α}
    (h : Separated sign R us as) (hus : us.length ≤ bound) {rest : List TokenKind}
    (hrest : F rest) (hend : rest.head? ≠ some (.symbol sign)) (rounds : Nat)
    (hrounds : us.length < rounds) :
    (separated sign item rounds).Yields us (as.map g) rest := by
  induction h generalizing rounds with
  | @one ks a ha =>
    obtain ⟨rounds, rfl⟩ : ∃ n, rounds = n + 1 := ⟨rounds - 1, by omega⟩
    have hfirst := hitem ks a rest ha hus hrest
    exact hfirst.last (goesOn_skipSymbol hend (yields_pure rfl))
  | @more ks ms a as ha _ ih =>
    rw [List.length_append, List.length_cons] at hus hrounds
    obtain ⟨rounds, rfl⟩ : ∃ n, rounds = n + 1 := ⟨rounds - 1, by omega⟩
    have hfirst := hitem ks a (.symbol sign :: ms ++ rest) ha (by omega) (hsign _)
    exact hfirst.bind (goesOn_acceptSymbol
      ((ih (by omega) rounds (by omega)).last (yields_pure rfl)))

/-- Items up to a token that ends them, where an item may be followed by the next one and by what
follows the whole. -/
theorem yields_manyUntil {ends : TokenKind → Bool}
    (hitem : ∀ us a rest, R us a → us.length ≤ bound → F rest → item.Yields us (g a) rest)
    (hhead : ∀ us a, R us a → ∃ k ks, us = k :: ks ∧ ends k = false ∧ ∀ ms, F (k :: ms))
    {us : List TokenKind} {as : List α} (h : Repeated R us as) (hus : us.length ≤ bound)
    {rest : List TokenKind} (hrest : F rest) (hend : ends (rest.head?.getD .eof) = true)
    (rounds : Nat) (hrounds : us.length < rounds) :
    (manyUntil ends item rounds).Yields us (as.map g) rest := by
  induction h generalizing rounds with
  | nil =>
    obtain ⟨rounds, rfl⟩ : ∃ n, rounds = n + 1 := ⟨rounds - 1, by simp at hrounds; omega⟩
    refine goesOn_peekAt (k := rest.head?.getD .eof) rfl ?_
    rw [if_pos hend]
    exact yields_pure rfl
  | @cons ks ms a as ha hms ih =>
    obtain ⟨k, ks', rfl, hk, -⟩ := hhead ks a ha
    rw [List.length_append, List.length_cons] at hus hrounds
    obtain ⟨rounds, rfl⟩ : ∃ n, rounds = n + 1 := ⟨rounds - 1, by omega⟩
    refine goesOn_peek ?_
    rw [if_neg (by simp [hk])]
    have hnext : F (ms ++ rest) := by
      cases hms with
      | nil => exact hrest
      | cons hfirst _ =>
        obtain ⟨l, ls, rfl, -, hl⟩ := hhead _ _ hfirst
        exact hl _
    have hfirst := hitem (k :: ks') a (ms ++ rest) ha (by rw [List.length_cons]; omega) hnext
    exact hfirst.bind ((ih (by omega) rounds (by omega)).last (yields_pure rfl))

end

/-! ## Types -/

private theorem baseType_yields_primitive (type : Primitive) (rest : List TokenKind) :
    baseType.Yields [.keyword type.word] (.primitive type .nowhere) rest := by
  cases type <;> rfl

private theorem arraySize_yields {text : String} {size : Nat} (h : sizeValue text = .ok size)
    (rest : List TokenKind) : arraySize.Yields [.integer text] size rest := by
  refine goesOn_advance (by simp) ?_
  dsimp only
  rw [h]
  exact yields_pure rfl

/-- Array sizes end where no bracket opens. -/
theorem arraySizes_stop {rest : List TokenKind} (hrest : rest.head? ≠ some (.symbol .lbracket))
    (rounds : Nat) (type : WrittenType) : (arraySizes (rounds + 1) type).Yields [] type rest :=
  goesOn_skipSymbol hrest (yields_pure rfl)

/-- After the tokens of a type that is no reference, the loop over array sizes has that type, and
a round left to see that no more sizes follow. -/
theorem baseType_goesOn_sizes {rest : List TokenKind} (rounds : Nat) (type : WrittenType)
    {us : List TokenKind} (h : type.Spelled us) (htype : type.isReference = false)
    (hus : us.length ≤ rounds) :
    ∃ left, rounds < left + us.length ∧
      (baseType >>= arraySizes rounds).GoesOn us (arraySizes left type.spanless) rest := by
  induction h generalizing rest with
  | primitive =>
    exact ⟨rounds, by simp, (baseType_yields_primitive _ _).last goesOn_refl⟩
  | named => exact ⟨rounds, by simp, rfl⟩
  | @array ks element text size span helement _ hsize ih =>
    rw [List.length_append] at hus ⊢
    obtain ⟨left, hleft, hgoes⟩ := ih helement (by omega)
    obtain ⟨left, rfl⟩ : ∃ n, left = n + 1 := ⟨left - 1, by simp at hus; omega⟩
    refine ⟨left, by simp; omega, hgoes.trans (goesOn_acceptSymbol ?_)⟩
    refine (arraySize_yields hsize _).bind (goesOn_symbol ?_)
    simp [goesOn_refl, WrittenType.spanless]
  | reference => cases htype

/-- A type without a reference mark is parsed up to where no bracket follows. -/
theorem yields_sizes {type : WrittenType} {us : List TokenKind} (h : type.Spelled us)
    (htype : type.isReference = false) {bound : Nat} (hus : us.length ≤ bound)
    {rest : List TokenKind} (hrest : rest.head? ≠ some (.symbol .lbracket)) :
    (baseType >>= arraySizes bound).Yields us type.spanless rest := by
  obtain ⟨left, hleft, hgoes⟩ := baseType_goesOn_sizes bound type h htype hus
  obtain ⟨left, rfl⟩ : ∃ n, left = n + 1 := ⟨left - 1, by omega⟩
  exact hgoes.last (arraySizes_stop hrest left _)

/-- A type ends before everything but a bracket and a reference mark. -/
theorem yields_writtenType_before {type : WrittenType} {us : List TokenKind} (h : type.Spelled us)
    {bound : Nat} (hus : us.length ≤ bound) {rest : List TokenKind}
    (hbracket : rest.head? ≠ some (.symbol .lbracket)) (hmark : rest.head? ≠ some (.symbol .amp)) :
    (writtenType bound).Yields us type.spanless rest := by
  refine goesOn_bind_assoc ?_
  by_cases htype : type.isReference = true
  · cases h with
    | reference hreferent hks =>
      rw [List.length_append] at hus
      refine (yields_sizes hks hreferent (by omega) (by simp)).bind (goesOn_acceptSymbol ?_)
      exact goesOn_lastSpan (yields_pure (by simp [WrittenType.spanless]))
    | _ => cases htype
  · refine (yields_sizes h (by simpa using htype) hus hbracket).last ?_
    exact goesOn_skipSymbol hmark (yields_pure rfl)

/-- A type is followed by a name. -/
theorem yields_writtenType {type : WrittenType} {us : List TokenKind} (h : type.Spelled us)
    {bound : Nat} (hus : us.length ≤ bound) {name : String} {rest : List TokenKind} :
    (writtenType bound).Yields us type.spanless (.identifier name :: rest) :=
  yields_writtenType_before h hus (by simp) (by simp)

/-! ## Heads of expressions -/

/-- Whether an expression can start with the token. -/
def startsExpr : TokenKind → Bool
  | .integer _ | .float _ | .string _ | .identifier _ => true
  | .keyword .kwTrue | .keyword .kwFalse | .keyword .kwNil | .keyword .kwThis
  | .keyword .kwNew => true
  | .symbol .lparen | .symbol .lbrace => true
  | k => (unaryOp? k).isSome

/-- An expression starts with a token that can start one, and without an operator if it is tied
together like a selection. -/
theorem exists_head_of_spelled (e : Expr) {us : List TokenKind} (h : e.Spelled us) :
    ∃ k ks, us = k :: ks ∧ startsExpr k = true ∧ (8 ≤ e.level → unaryOp? k = none) := by
  match e, us, h with
  | .int .., _, .int _ | .float .., _, .float _ | .string .., _, .string _
  | .bool .., _, .true | .bool .., _, .false | .nil .., _, .nil | .self .., _, .self
  | .ident .., _, .ident | .create .., _, .create _ | .paren .., _, .paren _
  | .array .., _, .array _ => exact ⟨_, _, rfl, rfl, fun _ => rfl⟩
  | .field object .., _, .field hobject hks
  | .call object .., _, .call hobject hks _
  | .index object .., _, .index hobject hks _ =>
    obtain ⟨k, ks, rfl, hk, hunary⟩ := exists_head_of_spelled object hks
    exact ⟨k, _, rfl, hk, fun _ => hunary hobject⟩
  | .unary op operand _, _, .unary _ _ =>
    refine ⟨_, _, rfl, by cases op <;> rfl, fun hlevel => ?_⟩
    rw [Expr.level] at hlevel
    omega
  | .binary op left right _, _, .binary _ hks _ _ =>
    obtain ⟨k, ks, rfl, hk, -⟩ := exists_head_of_spelled left hks
    refine ⟨k, _, rfl, hk, fun hlevel => ?_⟩
    have hop := op.level_lt
    rw [Expr.level] at hlevel
    omega

/-! ## What may follow an expression -/

/-- The token ahead, if any, does not go on with an expression of at least the level. -/
structure Stops (n : Nat) (rest : List TokenKind) : Prop where
  /-- No member is selected. -/
  dot : rest.head? ≠ some (.symbol .dot)
  /-- No element is selected. -/
  bracket : rest.head? ≠ some (.symbol .lbracket)
  /-- No arguments are given. -/
  paren : rest.head? ≠ some (.symbol .lparen)
  /-- No operator of such a level is ahead. -/
  operator : ∀ op : BinaryOp, n ≤ op.level → rest.head? ≠ some (.symbol op.symbol)

/-- What ends an expression of a level ends those of higher levels. -/
theorem Stops.mono {n m : Nat} {rest : List TokenKind} (h : Stops n rest) (hle : n ≤ m) :
    Stops m rest :=
  ⟨h.dot, h.bracket, h.paren, fun op hop => h.operator op (hle.trans hop)⟩

/-- No sign or word comes first where the tokens end. -/
theorem head?_ne_of_end {rest : List TokenKind} (hrest : rest.head?.getD .eof = .eof)
    {k : TokenKind} (hk : k ≠ .eof) : rest.head? ≠ some k := by
  intro hhead
  rw [hhead] at hrest
  exact hk hrest

/-- The end of file ends every expression. -/
theorem stops_of_end (n : Nat) {rest : List TokenKind} (hrest : rest.head?.getD .eof = .eof) :
    Stops n rest :=
  ⟨head?_ne_of_end hrest (by simp), head?_ne_of_end hrest (by simp),
    head?_ne_of_end hrest (by simp), fun _ _ => head?_ne_of_end hrest (by simp)⟩

/-- Whether the token stands only behind a complete expression. -/
def closesExpr : TokenKind → Bool
  | .keyword _ => true
  | .symbol .rparen | .symbol .rbracket | .symbol .rbrace | .symbol .comma | .symbol .semi
  | .symbol .assign => true
  | _ => false

/-- A token that stands only behind complete expressions ends every expression. -/
theorem stops_of_closes {k : TokenKind} (h : closesExpr k = true) (n : Nat)
    (rest : List TokenKind) : Stops n (k :: rest) := by
  have hne : ∀ sign : Symbol, closesExpr (.symbol sign) = false →
      (k :: rest).head? ≠ some (.symbol sign) := by
    intro sign hsign hk
    cases hk
    rw [h] at hsign
    cases hsign
  exact ⟨hne _ rfl, hne _ rfl, hne _ rfl, fun op _ => hne _ (by cases op <;> rfl)⟩

/-- The operators of a lower level end an expression. -/
theorem stops_of_operator {op : BinaryOp} {n : Nat} (hop : op.level < n)
    (rest : List TokenKind) : Stops n (.symbol op.symbol :: rest) := by
  refine ⟨?_, ?_, ?_, fun op' hop' h => ?_⟩
  iterate 3 cases op <;> simp [BinaryOp.symbol]
  have hsymbol : op.symbol = op'.symbol := by simpa using h
  have hlevel : op.level = op'.level := by
    cases op <;> cases op' <;> first | rfl | cases hsymbol
  omega

/-- The parser yields every expression that is tied together at least like the level and has at
most so many tokens. -/
def TakesExprs (p : Parser Expr) (n bound : Nat) : Prop :=
  ∀ (e : Expr) (us rest : List TokenKind), e.Spelled us → n ≤ e.level → us.length ≤ bound →
    Stops n rest → p.Yields us e.spanless rest

/-! ## Primary expressions and selections -/

section

variable {nested : Parser Expr} {b : Nat} (hn : nested.TakesExprs 0 b)

include hn

private theorem yields_exprs {us : List TokenKind} {es : List Expr}
    (h : Separated .comma Expr.Spelled us es) (hus : us.length ≤ b) {k : TokenKind}
    (hk : closesExpr k = true) (hcomma : k ≠ .symbol .comma) (rest : List TokenKind) :
    (separated .comma nested (b + 1)).Yields us (es.map Expr.spanless) (k :: rest) :=
  yields_separated (F := Stops 0)
    (fun us e rest he hus hrest => hn e us rest he (Nat.zero_le _) hus hrest)
    (fun _ => stops_of_closes rfl 0 _) h hus (stops_of_closes hk 0 rest) (by simpa using hcomma)
    (b + 1) (by omega)

/-- Arguments are parsed from the list between their parentheses. -/
theorem yields_arguments {us : List TokenKind} {args : List Expr}
    (h : Listed .comma Expr.Spelled us args) (hus : us.length ≤ b) (rest : List TokenKind) :
    (arguments nested (b + 1)).Yields (.symbol .lparen :: (us ++ [.symbol .rparen]))
      (args.map Expr.spanless) rest := by
  refine goesOn_symbol ?_
  cases h with
  | none => rfl
  | some h =>
    obtain ⟨ks, vs, e, es, rfl, -, he, -⟩ := h.exists_first
    obtain ⟨k, ks, rfl, hk, -⟩ := exists_head_of_spelled e he
    refine goesOn_peekAt (k := k) rfl ?_
    dsimp only
    rw [if_neg (by rintro rfl; cases hk)]
    exact (yields_exprs hn h hus rfl (by simp) rest).bind (goesOn_symbol (yields_pure rfl))

/-- A primary expression is parsed from its tokens. -/
theorem yields_primary {e : Expr} {us : List TokenKind} (h : e.Spelled us) (hlevel : 9 ≤ e.level)
    (hus : us.length ≤ b + 1) (rest : List TokenKind) :
    (primary nested (b + 1)).Yields us e.spanless rest := by
  cases h with
  | int hvalue | float hvalue | string hvalue =>
    exact goesOn_peek (goesOn_advance (by simp) (goesOn_lift hvalue (yields_pure rfl)))
  | true | false | nil | self | ident => rfl
  | create hargs =>
    simp only [List.length_cons, List.length_append] at hus
    refine goesOn_peek (goesOn_advance (by simp) (goesOn_identifier ?_))
    refine (yields_arguments hn hargs (by omega) rest).last (goesOn_lastSpan (yields_pure ?_))
    simp [Expr.spanless, Expr.spanlessAll_eq_map]
  | paren hinner =>
    simp only [List.length_cons, List.length_append] at hus
    refine goesOn_peek (goesOn_advance (by simp) ?_)
    refine (hn _ _ _ hinner (Nat.zero_le _) (by omega) (stops_of_closes rfl 0 _)).bind ?_
    exact goesOn_symbol (yields_pure (by simp [Expr.spanless]))
  | array helements =>
    simp only [List.length_cons, List.length_append] at hus
    refine goesOn_peek (goesOn_advance (by simp) ?_)
    refine (yields_exprs hn helements (by omega) rfl (by simp) _).bind ?_
    exact goesOn_symbol (yields_pure (by simp [Expr.spanless, Expr.spanlessAll_eq_map]))
  | field | call | index | unary => simp [Expr.level] at hlevel
  | @binary op =>
    have hop := op.level_lt
    rw [Expr.level] at hlevel
    omega

omit hn in
/-- A name behind a dot is an attribute if no parenthesis follows. -/
theorem memberOf_yields_field {bound : Nat} (object : Expr) (name : String) {span : Span}
    {rest : List TokenKind} (hrest : rest.head? ≠ some (.symbol .lparen)) :
    (memberOf nested bound object.spanless).Yields [.identifier name]
      (Expr.field object name span).spanless rest := by
  refine goesOn_identifier (goesOn_peekAt (k := rest.head?.getD .eof) rfl ?_)
  have hparen : rest.head?.getD .eof ≠ .symbol .lparen := by
    cases rest with
    | nil => simp
    | cons k ks => simpa using hrest
  rw [if_neg hparen]
  exact yields_pure (by simp [Expr.spanless])

/-- A name behind a dot with arguments is a call. -/
theorem memberOf_yields_call (receiver : Expr) (method : String) {us : List TokenKind}
    {args : List Expr} (h : Listed .comma Expr.Spelled us args) (hus : us.length ≤ b)
    (rest : List TokenKind) {span : Span} :
    (memberOf nested (b + 1) receiver.spanless).Yields
      (.identifier method :: .symbol .lparen :: (us ++ [.symbol .rparen]))
      (Expr.call receiver method args span).spanless rest := by
  refine goesOn_identifier (goesOn_peek ?_)
  rw [if_pos rfl]
  refine (yields_arguments hn h hus rest).last (goesOn_lastSpan (yields_pure ?_))
  simp [Expr.spanless, Expr.spanlessAll_eq_map]

private theorem yields_elementOf (object : Expr) {position : Expr} {us : List TokenKind}
    (h : position.Spelled us) (hus : us.length ≤ b) (rest : List TokenKind) {span : Span} :
    (elementOf nested object.spanless).Yields (us ++ [.symbol .rbracket])
      (Expr.index object position span).spanless rest := by
  refine (hn position us _ h (Nat.zero_le _) hus (stops_of_closes rfl 0 _)).bind ?_
  exact goesOn_symbol (yields_pure (by simp [Expr.spanless]))

omit hn in
/-- Selections end where no dot and no bracket follows. -/
theorem selections_stop {bound : Nat} {rest : List TokenKind} (hrest : Stops 8 rest)
    (rounds : Nat) (e : Expr) : (selections nested bound (rounds + 1) e).Yields [] e rest :=
  goesOn_skipSymbol hrest.dot (goesOn_skipSymbol hrest.bracket (yields_pure rfl))

/-- After the tokens of an expression without operators, the loop over selections has it. -/
theorem primary_goesOn_selections (rounds : Nat) (e : Expr) (us rest : List TokenKind)
    (h : e.Spelled us) (hlevel : 8 ≤ e.level) (hrounds : us.length ≤ rounds)
    (hus : us.length ≤ b + 1) (hrest : rest.head? ≠ some (.symbol .lparen)) :
    ∃ left, rounds < left + us.length ∧
      (primary nested (b + 1) >>= selections nested (b + 1) rounds).GoesOn us
        (selections nested (b + 1) left e.spanless) rest := by
  by_cases hprimary : 9 ≤ e.level
  · have hpos := List.length_pos_of_ne_nil h.ne_nil
    exact ⟨rounds, by omega, (yields_primary hn h hprimary hus rest).last goesOn_refl⟩
  match e, us, h with
  | .field object name _, _, @Expr.Spelled.field ks _ _ _ hobject hks =>
    simp only [List.length_append, List.length_cons] at hrounds hus ⊢
    obtain ⟨left, hleft, hgoes⟩ := primary_goesOn_selections rounds object ks
      (.symbol .dot :: .identifier name :: rest) hks hobject (by omega) (by omega) (by simp)
    obtain ⟨left, rfl⟩ : ∃ n, left = n + 1 := ⟨left - 1, by omega⟩
    refine ⟨left, by omega, hgoes.trans (goesOn_acceptSymbol ?_)⟩
    exact (memberOf_yields_field object name hrest).last goesOn_refl
  | .call receiver method args _, _, @Expr.Spelled.call ks ms _ _ _ _ hreceiver hks hargs =>
    simp only [List.length_append, List.length_cons] at hrounds hus ⊢
    obtain ⟨left, hleft, hgoes⟩ := primary_goesOn_selections rounds receiver ks
      (.symbol .dot :: .identifier method :: .symbol .lparen :: (ms ++ [.symbol .rparen]) ++ rest)
      hks hreceiver (by omega) (by omega) (by simp)
    obtain ⟨left, rfl⟩ : ∃ n, left = n + 1 := ⟨left - 1, by omega⟩
    refine ⟨left, by omega, hgoes.trans (goesOn_acceptSymbol ?_)⟩
    exact (memberOf_yields_call hn receiver method hargs (by omega) rest).last goesOn_refl
  | .index object position _, _, @Expr.Spelled.index ks ms _ _ _ hobject hks hms =>
    simp only [List.length_append, List.length_cons] at hrounds hus ⊢
    obtain ⟨left, hleft, hgoes⟩ := primary_goesOn_selections rounds object ks
      (.symbol .lbracket :: (ms ++ [.symbol .rbracket]) ++ rest) hks hobject (by omega)
      (by omega) (by simp)
    obtain ⟨left, rfl⟩ : ∃ n, left = n + 1 := ⟨left - 1, by omega⟩
    refine ⟨left, by omega, hgoes.trans (goesOn_skipSymbol (by simp) (goesOn_acceptSymbol ?_))⟩
    exact (yields_elementOf hn object hms (by omega) rest).last goesOn_refl
  | .unary .., _, _ => simp [Expr.level] at hlevel
  | .binary op .., _, _ =>
    have hop := op.level_lt
    rw [Expr.level] at hlevel
    omega
  | .int .., _, _ | .float .., _, _ | .bool .., _, _ | .string .., _, _ | .nil _, _, _
  | .self _, _, _ | .ident .., _, _ | .create .., _, _ | .array .., _, _ | .paren .., _, _ =>
    exact absurd (Nat.le_refl 9) hprimary

/-- An expression with selections is parsed from its tokens. -/
theorem yields_selected {e : Expr} {us rest : List TokenKind} (h : e.Spelled us)
    (hlevel : 8 ≤ e.level) (hus : us.length ≤ b + 1) (hrest : Stops 8 rest) :
    (selected nested (b + 1)).Yields us e.spanless rest := by
  obtain ⟨left, hleft, hgoes⟩ :=
    primary_goesOn_selections hn (b + 1) e us rest h hlevel hus hus hrest.paren
  obtain ⟨left, rfl⟩ : ∃ n, left = n + 1 := ⟨left - 1, by omega⟩
  exact hgoes.last (selections_stop hrest left _)

/-! ## Operators -/

/-- An expression with signs in front is parsed with a round for each token. -/
theorem yields_signed (rounds : Nat) (e : Expr) (us : List TokenKind) {rest : List TokenKind}
    (h : e.Spelled us) (hlevel : 7 ≤ e.level) (hrounds : us.length ≤ rounds)
    (hus : us.length ≤ b + 1) (hrest : Stops 7 rest) :
    (signed nested (b + 1) rounds).Yields us e.spanless rest := by
  obtain ⟨rounds, rfl⟩ : ∃ n, rounds = n + 1 :=
    ⟨rounds - 1, by have := List.length_pos_of_ne_nil h.ne_nil; omega⟩
  by_cases hselected : 8 ≤ e.level
  · obtain ⟨k, ks, rfl, -, hunary⟩ := exists_head_of_spelled e h
    refine goesOn_peek ?_
    dsimp only
    rw [hunary hselected]
    exact yields_selected hn h hselected hus (hrest.mono (by omega))
  · match e, us, h with
    | .unary op operand _, _, @Expr.Spelled.unary _ ks _ _ hoperand hks =>
      rw [List.length_cons] at hrounds hus
      have hop : unaryOp? (.symbol op.symbol) = some op := by cases op <;> rfl
      refine goesOn_peek ?_
      dsimp only
      rw [hop]
      refine goesOn_advance (by simp) ?_
      refine (yields_signed rounds operand ks hks hoperand (by omega) (by omega) hrest).last ?_
      exact yields_pure (by simp [Expr.spanless])
    | .binary op .., _, _ =>
      have hop := op.level_lt
      rw [Expr.level] at hlevel
      omega
    | .int .., _, _ | .float .., _, _ | .bool .., _, _ | .string .., _, _ | .nil _, _, _
    | .self _, _, _ | .ident .., _, _ | .create .., _, _ | .array .., _, _ | .paren .., _, _
    | .field .., _, _ | .call .., _, _ | .index .., _, _ =>
      exact absurd (by simp [Expr.level]) hselected

private theorem takesExprs_signed : (signed nested (b + 1) (b + 1)).TakesExprs 7 (b + 1) :=
  fun e us _ h hlevel hus hrest => yields_signed hn (b + 1) e us h hlevel hus hus hrest

omit hn in
/-- Operations of a level end where none of its operators follows. -/
theorem operations_stop {level : Level} {n : Nat} (hl : level.Holds n) {operand : Parser Expr}
    {rest : List TokenKind} (hrest : Stops n rest) (rounds : Nat) (e : Expr) :
    (operations level operand (rounds + 1) e).Yields [] e rest := by
  refine goesOn_peekAt (k := rest.head?.getD .eof) rfl ?_
  have hnone : level (rest.head?.getD .eof) = none := by
    refine Option.eq_none_iff_forall_ne_some.mpr fun op hop => ?_
    obtain ⟨hk, hlevel⟩ := (hl _ _).mp hop
    cases rest with
    | nil => cases hk
    | cons k ks => exact hrest.operator op (by omega) (congrArg some hk)
  dsimp only
  rw [hnone]
  exact yields_pure rfl

omit hn in
/-- After the tokens of an expression, the loop over the operations of its level has it. -/
theorem operand_goesOn_operations {level : Level} {n : Nat} (hl : level.Holds n) (hn : n < 7)
    {operand : Parser Expr} {bound : Nat} (hoperand : operand.TakesExprs (n + 1) bound)
    (rounds : Nat) (e : Expr) (us rest : List TokenKind) (h : e.Spelled us)
    (hlevel : n ≤ e.level) (hrounds : us.length ≤ rounds) (hus : us.length ≤ bound)
    (hrest : Stops (n + 1) rest) :
    ∃ left, rounds < left + us.length ∧
      (operand >>= operations level operand rounds).GoesOn us
        (operations level operand left e.spanless) rest := by
  by_cases habove : n + 1 ≤ e.level
  · have hpos := List.length_pos_of_ne_nil h.ne_nil
    exact ⟨rounds, by omega, (hoperand e us rest h habove hus hrest).last goesOn_refl⟩
  match e, us, h with
  | .binary op left right _, _, @Expr.Spelled.binary _ ks ms _ _ _ hleft hks hright hms =>
    rw [Expr.level] at hlevel habove
    obtain rfl : n = op.level := by omega
    simp only [List.length_append, List.length_cons] at hrounds hus ⊢
    obtain ⟨more, hmore, hgoes⟩ := operand_goesOn_operations hl hn hoperand rounds left ks
      (.symbol op.symbol :: ms ++ rest) hks hleft (by omega) (by omega)
      (stops_of_operator (Nat.lt_succ_self _) _)
    obtain ⟨more, rfl⟩ : ∃ n, more = n + 1 := ⟨more - 1, by omega⟩
    refine ⟨more, by omega, hgoes.trans (goesOn_peek ?_)⟩
    have hop : level (.symbol op.symbol) = some op := (hl _ op).mpr ⟨rfl, rfl⟩
    dsimp only
    rw [hop]
    refine goesOn_advance (by simp) ((hoperand right ms rest hms hright (by omega) hrest).last ?_)
    simp [goesOn_refl, Expr.spanless]
  | .int .., _, _ | .float .., _, _ | .bool .., _, _ | .string .., _, _ | .nil _, _, _
  | .self _, _, _ | .ident .., _, _ | .create .., _, _ | .array .., _, _ | .paren .., _, _
  | .field .., _, _ | .call .., _, _ | .index .., _, _ | .unary .., _, _ =>
    refine absurd ?_ habove
    rw [Expr.level]
    omega

omit hn in
/-- If the operands of a level are parsed, so are its operations. -/
theorem takesExprs_leftGrouped {level : Level} {n : Nat} (hl : level.Holds n) (hn : n < 7)
    {operand : Parser Expr} {bound : Nat} (hoperand : operand.TakesExprs (n + 1) bound) :
    (leftGrouped level operand bound).TakesExprs n bound := by
  intro e us rest h hlevel hus hrest
  obtain ⟨left, hleft, hgoes⟩ := operand_goesOn_operations hl hn hoperand bound e us rest h
    hlevel hus hus (hrest.mono (Nat.le_succ n))
  obtain ⟨left, rfl⟩ : ∃ n, left = n + 1 := ⟨left - 1, by omega⟩
  exact hgoes.last (operations_stop hl hrest left _)

end

/-- An expression is parsed with a bound that is at least the number of its tokens. -/
theorem takesExprs_expression (bound : Nat) : (expression bound).TakesExprs 0 bound := by
  induction bound with
  | zero =>
    intro e us rest h _ hus
    exact absurd (List.length_eq_zero_iff.mp (Nat.le_zero.mp hus)) h.ne_nil
  | succ bound ih =>
    exact layered_induction (P := fun n p => p.TakesExprs n (bound + 1)) (takesExprs_signed ih)
      fun level n operand hl hn hoperand => takesExprs_leftGrouped hl hn hoperand

/-- An expression is parsed from its tokens if the bound is no less than their number. -/
theorem yields_expression {e : Expr} {us : List TokenKind} (h : e.Spelled us) {bound : Nat}
    (hus : us.length ≤ bound) {rest : List TokenKind} (hrest : Stops 0 rest) :
    (expression bound).Yields us e.spanless rest :=
  takesExprs_expression bound e us rest h (Nat.zero_le _) hus hrest

end Parser

end ClassCheck
