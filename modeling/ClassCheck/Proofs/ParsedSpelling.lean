import ClassCheck.Proofs.Cursors
import ClassCheck.Proofs.Grammar

/-!
# What is parsed is spelled by what was read

Whenever a parser succeeds, the tokens between the cursor before and the cursor after spell the
tree that it yields. The relation between what was read, the tree and the tokens that are left is
carried through the parsers by one rule for each way that parsers are put together.
-/

namespace ClassCheck

namespace Parser

/-- Whenever the parser succeeds, what it read, its value and the tokens that are left are
related. -/
def Reads {α : Type} (p : Parser α) (Q : List TokenKind → α → List TokenKind → Prop) : Prop :=
  ∀ c a c', p c = .ok (a, c') → ∃ us, c.Reaches us c' ∧ Q (us.map Token.kind) a c'.kinds

/-- The same for a parser that starts where the token ahead has this kind. -/
def ReadsAhead {α : Type} (k : TokenKind) (p : Parser α)
    (Q : List TokenKind → α → List TokenKind → Prop) : Prop :=
  ∀ c a c', c.current.kind = k → p c = .ok (a, c') →
    ∃ us, c.Reaches us c' ∧ Q (us.map Token.kind) a c'.kinds

section

variable {α β : Type} {Q : List TokenKind → α → List TokenKind → Prop}
  {T : List TokenKind → β → List TokenKind → Prop}

/-- What is read may be said less exactly. -/
theorem Reads.mono {p : Parser α} (hp : p.Reads Q)
    {Q' : List TokenKind → α → List TokenKind → Prop}
    (h : ∀ us a rest, Q us a rest → Q' us a rest) : p.Reads Q' := by
  intro c a c' hc
  obtain ⟨us, hus, hQ⟩ := hp c a c' hc
  exact ⟨us, hus, h _ a _ hQ⟩

/-- A value without tokens is read from none. -/
theorem reads_pure {a : α} (h : ∀ rest, Q [] a rest) : (pure a : Parser α).Reads Q := by
  rintro c _ _ ⟨⟩
  exact ⟨[], c.reaches_self, h _⟩

private theorem reads_fail {fault : SyntaxFault} {span : Span} :
    (fail fault span : Parser α).Reads Q :=
  nofun

private theorem reads_failExpected {what : Expectation} : (failExpected what : Parser α).Reads Q :=
  nofun

private theorem reads_exhausted : (exhausted : Parser α).Reads Q := nofun

/-- Two parsers in a row succeed only if both do. -/
theorem exists_of_bind_eq_ok {p : Parser α} {f : α → Parser β} {c c' : Cursor} {b : β}
    (h : (p >>= f) c = .ok (b, c')) : ∃ a c₁, p c = .ok (a, c₁) ∧ f a c₁ = .ok (b, c') := by
  rw [bind_apply] at h
  cases hp : p c with
  | error e =>
    rw [hp] at h
    cases h
  | ok r =>
    rw [hp] at h
    exact ⟨r.1, r.2, rfl, h⟩

/-- What the second parser reads comes behind what the first one read. -/
theorem Reads.bind {p : Parser α} {f : α → Parser β} {R : List TokenKind → α → Prop}
    (hp : p.Reads fun us a _ => R us a)
    (hf : ∀ a us, R us a → (f a).Reads fun vs b rest => T (us ++ vs) b rest) :
    (p >>= f).Reads T := by
  intro c b c' hc
  obtain ⟨a, c₁, hpc, hfc⟩ := exists_of_bind_eq_ok hc
  obtain ⟨us, hus, hR⟩ := hp c a c₁ hpc
  obtain ⟨vs, hvs, hT⟩ := hf a _ hR c₁ b c' hfc
  exact ⟨us ++ vs, hus.trans hvs, by rwa [List.map_append]⟩

/-- The same where what the first parser establishes depends on what it left. -/
theorem Reads.bind_rest {p : Parser α} {f : α → Parser β} (hp : p.Reads Q)
    (hf : ∀ a us, (f a).Reads fun vs b rest => Q us a (vs ++ rest) → T (us ++ vs) b rest) :
    (p >>= f).Reads T := by
  intro c b c' hc
  obtain ⟨a, c₁, hpc, hfc⟩ := exists_of_bind_eq_ok hc
  obtain ⟨us, hus, hQ⟩ := hp c a c₁ hpc
  obtain ⟨vs, hvs, hT⟩ := hf a (us.map Token.kind) c₁ b c' hfc
  rw [hvs.kinds] at hQ
  exact ⟨us ++ vs, hus.trans hvs, by rw [List.map_append]; exact hT hQ⟩

/-- Both sides of a test read alike. -/
theorem Reads.ite {p q : Parser α} {b : Prop} [Decidable b] (hp : p.Reads Q) (hq : q.Reads Q) :
    (if b then p else q).Reads Q := by
  split
  · exact hp
  · exact hq

/-! ## Single tokens -/

/-- Looking at the token ahead settles its kind for what follows. -/
theorem reads_peek {f : Token → Parser α} (h : ∀ t, (f t).ReadsAhead t.kind Q) :
    (peek >>= f).Reads Q :=
  fun c a c' hc => h c.current c a c' rfl hc

/-- That the token ahead has this kind may be used for what is read. -/
theorem Reads.ahead {k : TokenKind} {p : Parser α}
    (h : p.Reads fun us a rest => (us ++ rest).head?.getD .eof = k → Q us a rest) :
    p.ReadsAhead k Q := by
  intro c a c' hk hc
  obtain ⟨us, hus, hQ⟩ := h c a c' hc
  refine ⟨us, hus, hQ ?_⟩
  rw [← hus.kinds, Cursor.kinds_head?, hk]

/-- What holds anywhere holds with a token ahead. -/
theorem Reads.anywhere {k : TokenKind} {p : Parser α} (h : p.Reads Q) : p.ReadsAhead k Q :=
  fun c a c' _ hc => h c a c' hc

/-- The token that was looked at is consumed. -/
theorem readsAhead_advance {k : TokenKind} (hk : k ≠ .eof) {f : Token → Parser α}
    (h : ∀ t, (f t).Reads fun us a rest => Q (k :: us) a rest) :
    (advance >>= f).ReadsAhead k Q := by
  rintro c a c' rfl hc
  obtain ⟨us, hus, hQ⟩ := h c.current c.advance a c' hc
  exact ⟨c.current :: us, (Cursor.reaches_advance hk).trans hus, hQ⟩

/-- A token is consumed, where the end of file is always a fault. -/
theorem reads_advance {f : Token → Parser α}
    (h : ∀ t, (f t).Reads fun us a rest => Q (t.kind :: us) a rest)
    (heof : ∀ t c r, t.kind = .eof → f t c ≠ .ok r) : (advance >>= f).Reads Q := by
  intro c a c' hc
  have hkind : c.current.kind ≠ .eof := fun hkind => heof c.current c.advance (a, c') hkind hc
  obtain ⟨us, hus, hQ⟩ := h c.current c.advance a c' hc
  exact ⟨c.current :: us, (Cursor.reaches_advance hkind).trans hus, hQ⟩

/-- A token that is asked for is read. -/
theorem reads_expect {kind : TokenKind} (hkind : kind ≠ .eof) {f : Span → Parser α}
    (h : ∀ span, (f span).Reads fun us a rest => Q (kind :: us) a rest) :
    (expect kind >>= f).Reads Q := by
  have hexpect : (expect kind).Reads fun us _ _ => us = [kind] := by
    refine reads_peek fun t => ?_
    split
    · rename_i ht
      rw [ht]
      exact readsAhead_advance hkind fun _ => reads_pure fun _ => rfl
    · exact reads_failExpected.anywhere
  exact hexpect.bind fun span us hus => hus ▸ h span

private theorem reads_symbol {sign : Symbol} {f : Span → Parser α}
    (h : ∀ span, (f span).Reads fun us a rest => Q (.symbol sign :: us) a rest) :
    (symbol sign >>= f).Reads Q :=
  reads_expect (by simp) h

private theorem reads_keyword {word : Keyword} {f : Span → Parser α}
    (h : ∀ span, (f span).Reads fun us a rest => Q (.keyword word :: us) a rest) :
    (keyword word >>= f).Reads Q :=
  reads_expect (by simp) h

/-- A token that may stand here: either it is consumed, or another one is ahead. -/
theorem reads_accept {kind : TokenKind} (hkind : kind ≠ .eof) {f : Bool → Parser α}
    (htrue : (f true).Reads fun us a rest => Q (kind :: us) a rest)
    (hfalse : (f false).Reads fun us a rest => (us ++ rest).head? ≠ some kind → Q us a rest) :
    (accept kind >>= f).Reads Q := by
  intro c a c' hc
  obtain ⟨b, c₁, hb, hf⟩ := exists_of_bind_eq_ok hc
  rw [accept_apply] at hb
  split at hb
  · rename_i hcurrent
    cases hb
    obtain ⟨us, hus, hQ⟩ := htrue _ a c' hf
    refine ⟨c.current :: us, (Cursor.reaches_advance (hcurrent ▸ hkind)).trans hus, ?_⟩
    rwa [List.map_cons, hcurrent]
  · rename_i hcurrent
    cases hb
    obtain ⟨us, hus, hQ⟩ := hfalse _ a c' hf
    refine ⟨us, hus, hQ fun hhead => hcurrent ?_⟩
    rw [← Cursor.kinds_head?, hus.kinds, hhead]
    rfl

private theorem reads_acceptSymbol {sign : Symbol} {f : Bool → Parser α}
    (htrue : (f true).Reads fun us a rest => Q (.symbol sign :: us) a rest)
    (hfalse : (f false).Reads fun us a rest =>
      (us ++ rest).head? ≠ some (.symbol sign) → Q us a rest) :
    (acceptSymbol sign >>= f).Reads Q :=
  reads_accept (by simp) htrue hfalse

private theorem reads_acceptKeyword {word : Keyword} {f : Bool → Parser α}
    (htrue : (f true).Reads fun us a rest => Q (.keyword word :: us) a rest)
    (hfalse : (f false).Reads fun us a rest =>
      (us ++ rest).head? ≠ some (.keyword word) → Q us a rest) :
    (acceptKeyword word >>= f).Reads Q :=
  reads_accept (by simp) htrue hfalse

private theorem reads_lastSpan {f : Span → Parser α} (h : ∀ span, (f span).Reads Q) :
    (lastSpan >>= f).Reads Q :=
  fun c a c' hc => h c.last c a c' hc

private theorem reads_peekAll {f : List Token → Parser α} (h : ∀ ts, (f ts).Reads Q) :
    (peekAll >>= f).Reads Q :=
  fun c a c' hc => h c.tokens c a c' hc

/-- A name is read from its token. -/
theorem reads_identifier : identifier.Reads fun us id _ => Ident.Spelled us id := by
  refine reads_peek fun ⟨kind, span⟩ => ?_
  dsimp only
  split
  · exact readsAhead_advance (by simp) fun _ => reads_pure fun _ => rfl
  · exact reads_failExpected.anywhere

/-- A value from a text needs no further tokens. -/
theorem reads_lift (value : Except SyntaxFault α) (span : Span) :
    (lift value span).Reads fun us a _ => us = [] ∧ value = .ok a := by
  cases value with
  | ok a => exact reads_pure fun _ => ⟨rfl, rfl⟩
  | error fault => exact reads_fail

end

/-! ## Sequences -/

section

variable {α : Type} {R : List TokenKind → α → Prop} {item : Parser α}

/-- Items with a sign between them are read so. -/
theorem reads_separated (h : item.Reads fun us a _ => R us a) (sign : Symbol) (bound : Nat) :
    (separated sign item bound).Reads fun us as _ => Separated sign R us as := by
  induction bound with
  | zero => exact reads_exhausted
  | succ bound ih =>
    refine h.bind fun a us hR => reads_acceptSymbol ?_ ?_
    · refine ih.bind fun as vs hvs => reads_pure fun _ => ?_
      rw [List.append_nil]
      exact .more hR hvs
    · refine reads_pure fun _ _ => ?_
      rw [List.append_nil]
      exact .one hR

/-- Items are read up to a token that ends them. -/
theorem reads_manyUntil (h : item.Reads fun us a _ => R us a) (ends : TokenKind → Bool)
    (bound : Nat) :
    (manyUntil ends item bound).Reads fun us as rest =>
      Repeated R us as ∧ ends (rest.head?.getD .eof) = true := by
  induction bound with
  | zero => exact reads_exhausted
  | succ bound ih =>
    refine reads_peek fun t => ?_
    split
    · rename_i hends
      refine Reads.ahead (reads_pure fun rest hhead => ⟨.nil, ?_⟩)
      rw [List.nil_append] at hhead
      rwa [hhead]
    · refine Reads.ahead ((h.bind fun a us hR => ih.bind_rest fun as vs => reads_pure ?_).mono
        fun _ _ _ hQ _ => hQ)
      rintro rest ⟨hvs, hends⟩
      rw [List.append_nil]
      exact ⟨.cons hR hvs, hends⟩

end

/-! ## Types -/

/-- A type without array sizes is read from its spelling and is no reference. -/
theorem reads_baseType :
    baseType.Reads fun us type _ => type.Spelled us ∧ type.isReference = false := by
  refine reads_peek fun ⟨kind, span⟩ => ?_
  unfold baseType?
  dsimp only
  split
  · rename_i type htype
    have hword : ∀ primitive : Primitive,
        WrittenType.Spelled [.keyword primitive.word] (.primitive primitive span) :=
      fun _ => .primitive
    split at htype <;> cases htype <;>
      refine readsAhead_advance (by simp) fun _ => reads_pure fun _ => ⟨?_, rfl⟩
    · exact hword .int
    · exact hword .float
    · exact hword .boolean
    · exact hword .string
    · exact .named
  · exact reads_failExpected.anywhere

/-- An array size is read from the text of a whole number. -/
theorem reads_arraySize :
    arraySize.Reads fun us size _ => ∃ text, us = [.integer text] ∧ sizeValue text = .ok size := by
  refine reads_advance (fun ⟨kind, span⟩ => ?_) ?_
  · dsimp only
    split
    · exact (reads_lift _ _).mono fun us size _ h => ⟨_, by rw [h.1], h.2⟩
    · exact reads_fail
  · rintro ⟨_, span⟩ c r ⟨⟩
    exact nofun

/-- Array sizes are read behind the type of the elements. -/
theorem reads_arraySizes (bound : Nat) {type : WrittenType} {us : List TokenKind}
    (htype : type.Spelled us) (href : type.isReference = false) :
    (arraySizes bound type).Reads fun vs type _ =>
      type.Spelled (us ++ vs) ∧ type.isReference = false := by
  induction bound generalizing type us with
  | zero => exact reads_exhausted
  | succ bound ih =>
    refine reads_acceptSymbol (reads_arraySize.bind ?_) (reads_pure fun _ _ => ⟨?_, href⟩)
    · rintro size _ ⟨text, rfl, hvalue⟩
      refine reads_symbol fun close => ?_
      have harray : (WrittenType.array type size (type.span.merge close)).Spelled
          (us ++ [.symbol .lbracket, .integer text, .symbol .rbracket]) :=
        .array href htype hvalue
      refine (ih harray rfl).mono fun vs type' _ h => ?_
      simpa using h
    · rwa [List.append_nil]

/-- A written type is read from its spelling. -/
theorem reads_writtenType (bound : Nat) :
    (writtenType bound).Reads fun us type _ => type.Spelled us := by
  refine reads_baseType.bind fun base us hbase =>
    (reads_arraySizes bound hbase.1 hbase.2).bind fun type vs htype => reads_acceptSymbol ?_ ?_
  · refine reads_lastSpan fun mark => reads_pure fun _ => ?_
    rw [← List.append_assoc]
    exact .reference htype.2 htype.1
  · refine reads_pure fun _ _ => ?_
    rw [List.append_nil]
    exact htype.1

/-! ## Expressions -/

section

variable {nested : Parser Expr} (hn : nested.Reads fun us e _ => e.Spelled us) (bound : Nat)

include hn

/-- Arguments are read from parentheses with a list in them. -/
theorem reads_arguments : (arguments nested bound).Reads fun us args _ =>
    ∃ ks, us = .symbol .lparen :: (ks ++ [.symbol .rparen]) ∧
      Listed .comma Expr.Spelled ks args := by
  have hclose : ∀ (args : List Expr) (ks : List TokenKind), Listed .comma Expr.Spelled ks args →
      (symbol .rparen >>= fun _ => pure args : Parser (List Expr)).Reads fun vs args _ =>
        ∃ ks', TokenKind.symbol .lparen :: (ks ++ vs) =
          .symbol .lparen :: (ks' ++ [.symbol .rparen]) ∧ Listed .comma Expr.Spelled ks' args :=
    fun args ks h => reads_symbol fun _ => reads_pure fun _ => ⟨ks, rfl, h⟩
  refine reads_symbol fun _ => reads_peek fun t => Reads.anywhere (.ite ?_ ?_)
  · exact hclose [] [] .none
  · exact (reads_separated hn .comma bound).bind fun args ks h => hclose args ks (.some h)

/-- A primary expression is read from its spelling. -/
theorem reads_primary :
    (primary nested bound).Reads fun us e _ => e.Spelled us ∧ 8 ≤ e.level := by
  have hnine : 8 ≤ 9 := by decide
  refine reads_peek fun ⟨kind, span⟩ => ?_
  dsimp only
  split
  · refine readsAhead_advance (by simp) fun _ => (reads_lift _ _).bind ?_
    rintro value _ ⟨rfl, hvalue⟩
    exact reads_pure fun _ => ⟨.int hvalue, hnine⟩
  · refine readsAhead_advance (by simp) fun _ => (reads_lift _ _).bind ?_
    rintro value _ ⟨rfl, hvalue⟩
    exact reads_pure fun _ => ⟨.float hvalue, hnine⟩
  · refine readsAhead_advance (by simp) fun _ => (reads_lift _ _).bind ?_
    rintro value _ ⟨rfl, hvalue⟩
    exact reads_pure fun _ => ⟨.string hvalue, hnine⟩
  · exact readsAhead_advance (by simp) fun _ => reads_pure fun _ => ⟨.ident, hnine⟩
  · exact readsAhead_advance (by simp) fun _ => reads_pure fun _ => ⟨.true, hnine⟩
  · exact readsAhead_advance (by simp) fun _ => reads_pure fun _ => ⟨.false, hnine⟩
  · exact readsAhead_advance (by simp) fun _ => reads_pure fun _ => ⟨.nil, hnine⟩
  · exact readsAhead_advance (by simp) fun _ => reads_pure fun _ => ⟨.self, hnine⟩
  · refine readsAhead_advance (by simp) fun _ => reads_identifier.bind ?_
    rintro name _ rfl
    refine (reads_arguments hn bound).bind ?_
    rintro args _ ⟨ks, rfl, hargs⟩
    refine reads_lastSpan fun close => reads_pure fun _ => ⟨?_, hnine⟩
    rw [List.append_nil]
    exact .create hargs
  · exact readsAhead_advance (by simp) fun _ => hn.bind fun inner ks hinner =>
      reads_symbol fun close => reads_pure fun _ => ⟨.paren hinner, hnine⟩
  · exact readsAhead_advance (by simp) fun _ => (reads_separated hn .comma bound).bind
      fun elements ks helements => reads_symbol fun close => reads_pure fun _ =>
        ⟨.array helements, hnine⟩
  · exact reads_failExpected.anywhere

/-- A member behind a dot is read with its object. -/
theorem reads_memberOf {object : Expr} {us : List TokenKind} (hobject : object.Spelled us)
    (hlevel : 8 ≤ object.level) :
    (memberOf nested bound object).Reads fun vs e _ =>
      e.Spelled (us ++ .symbol .dot :: vs) ∧ 8 ≤ e.level := by
  refine reads_identifier.bind ?_
  rintro name _ rfl
  refine reads_peek fun t => Reads.anywhere (.ite ?_ ?_)
  · refine (reads_arguments hn bound).bind ?_
    rintro args _ ⟨ks, rfl, hargs⟩
    refine reads_lastSpan fun close => reads_pure fun _ => ⟨?_, Nat.le_refl 8⟩
    rw [List.append_nil]
    exact .call hlevel hobject hargs
  · exact reads_pure fun _ => ⟨.field hlevel hobject, Nat.le_refl 8⟩

/-- An element is read with its array. -/
theorem reads_elementOf {object : Expr} {us : List TokenKind} (hobject : object.Spelled us)
    (hlevel : 8 ≤ object.level) :
    (elementOf nested object).Reads fun vs e _ =>
      e.Spelled (us ++ .symbol .lbracket :: vs) ∧ 8 ≤ e.level :=
  hn.bind fun _ _ hposition => reads_symbol fun _ => reads_pure fun _ =>
    ⟨.index hlevel hobject hposition, Nat.le_refl 8⟩

/-- Selections are read behind their object. -/
theorem reads_selections (rounds : Nat) {e : Expr} {us : List TokenKind} (he : e.Spelled us)
    (hlevel : 8 ≤ e.level) :
    (selections nested bound rounds e).Reads fun vs e _ => e.Spelled (us ++ vs) ∧ 8 ≤ e.level := by
  induction rounds generalizing e us with
  | zero => exact reads_exhausted
  | succ rounds ih =>
    refine reads_acceptSymbol ?_ ((reads_acceptSymbol (Q := fun vs (e : Expr) _ =>
      e.Spelled (us ++ vs) ∧ 8 ≤ e.level) ?_ ?_).mono fun _ _ _ h _ => h)
    · refine (reads_memberOf hn bound he hlevel).bind fun e' vs he' => ?_
      refine (ih he'.1 he'.2).mono fun ws e'' _ h => ?_
      simpa using h
    · refine (reads_elementOf hn he hlevel).bind fun e' vs he' => ?_
      refine (ih he'.1 he'.2).mono fun ws e'' _ h => ?_
      simpa using h
    · refine reads_pure fun _ _ => ⟨?_, hlevel⟩
      rwa [List.append_nil]

private theorem reads_selected :
    (selected nested bound).Reads fun us e _ => e.Spelled us ∧ 8 ≤ e.level :=
  (reads_primary hn bound).bind fun _ _ he => reads_selections hn bound bound he.1 he.2

omit hn in
/-- An operator in front is spelled by its sign. -/
theorem eq_symbol_of_unaryOp? {k : TokenKind} {op : UnaryOp} (h : unaryOp? k = some op) :
    k = .symbol op.symbol := by
  unfold unaryOp? at h
  split at h <;> cases h <;> rfl

/-- Signs are read in front of their operand. -/
theorem reads_signed (rounds : Nat) :
    (signed nested bound rounds).Reads fun us e _ => e.Spelled us ∧ 7 ≤ e.level := by
  have hselected : (selected nested bound).Reads fun us e _ => e.Spelled us ∧ 7 ≤ e.level :=
    (reads_selected hn bound).mono fun _ _ _ h => ⟨h.1, Nat.le_of_succ_le h.2⟩
  induction rounds with
  | zero => exact reads_exhausted
  | succ rounds ih =>
    refine reads_peek fun ⟨kind, span⟩ => ?_
    dsimp only
    split
    · rename_i op hop
      obtain rfl := eq_symbol_of_unaryOp? hop
      refine readsAhead_advance (by simp) fun _ => ih.bind fun operand us hoperand =>
        reads_pure fun _ => ⟨?_, Nat.le_refl 7⟩
      rw [List.append_nil]
      exact .unary hoperand.2 hoperand.1
    · exact hselected.anywhere

end

/-- Operations of a level are read from left to right. -/
theorem reads_leftGrouped {level : Level} {n : Nat} (hlevel : level.Holds n)
    {operand : Parser Expr} (hoperand : operand.Reads fun us e _ => e.Spelled us ∧ n < e.level)
    (bound : Nat) :
    (leftGrouped level operand bound).Reads fun us e _ => e.Spelled us ∧ n ≤ e.level := by
  have hoperations : ∀ (rounds : Nat) (left : Expr) (us : List TokenKind), left.Spelled us →
      n ≤ left.level → (operations level operand rounds left).Reads fun vs e _ =>
        e.Spelled (us ++ vs) ∧ n ≤ e.level := by
    intro rounds
    induction rounds with
    | zero => exact fun _ _ _ _ => reads_exhausted
    | succ rounds ih =>
      intro left us hleft hn
      refine reads_peek fun ⟨kind, span⟩ => ?_
      dsimp only
      split
      · rename_i op hop
        obtain ⟨rfl, rfl⟩ := (hlevel kind op).mp hop
        refine readsAhead_advance (by simp) fun _ => hoperand.bind fun right vs hright => ?_
        have hwhole : (Expr.binary op left right (left.span.merge right.span)).Spelled
            (us ++ .symbol op.symbol :: vs) := .binary hn hleft hright.2 hright.1
        refine (ih _ _ hwhole (Nat.le_refl _)).mono fun ws e _ h => ?_
        simpa using h
      · refine Reads.anywhere (reads_pure fun _ => ⟨?_, hn⟩)
        rwa [List.append_nil]
  exact hoperand.bind fun left us hleft =>
    hoperations bound left us hleft.1 (Nat.le_of_lt hleft.2)

/-- An expression is read from its spelling. -/
theorem reads_expression (bound : Nat) :
    (expression bound).Reads fun us e _ => e.Spelled us := by
  induction bound with
  | zero => exact reads_exhausted
  | succ bound ih =>
    have hlayers : (layered (expression bound) (bound + 1)).Reads
        fun us e _ => e.Spelled us ∧ 0 ≤ e.level := by
      refine layered_induction (P := fun n p => p.Reads fun us e _ => e.Spelled us ∧ n ≤ e.level)
        (reads_signed ih (bound + 1) (bound + 1)) ?_
      intro level n operand hlevel _ hoperand
      exact reads_leftGrouped hlevel hoperand (bound + 1)
    exact hlayers.mono fun _ _ _ h => h.1

/-! ## Statements -/

/-- A declared name is read with its initial value. -/
theorem reads_declarator (bound : Nat) :
    (declarator bound).Reads fun us d _ => d.Spelled us := by
  refine reads_identifier.bind ?_
  rintro name _ rfl
  refine reads_acceptSymbol ?_ (reads_pure fun _ _ => .plain)
  refine (reads_expression bound).bind fun init us hinit => reads_pure fun _ => ?_
  rw [List.append_nil]
  exact .init hinit

private theorem reads_declarators (bound : Nat) :
    (declarators bound).Reads fun us ds _ => Separated .comma Declarator.Spelled us ds :=
  reads_separated (reads_declarator bound) .comma bound

/-- A statement is spelled by what was read, and no alternative was left that belongs to it. -/
def StmtRead (us : List TokenKind) (s : Stmt) (rest : List TokenKind) : Prop :=
  s.Spelled us ∧ (s.endsOpen = true → rest.head? ≠ some (.keyword .kwElse))

/-- A statement that no `else` can follow is read wherever it stands. -/
theorem StmtRead.of_closed {us : List TokenKind} {s : Stmt} {rest : List TokenKind}
    (hs : s.Spelled us) (hclosed : s.endsOpen = false) : StmtRead us s rest :=
  ⟨hs, fun hopen => by simp [hclosed] at hopen⟩

/-- A declaration of local names is read from its spelling. -/
theorem reads_declaration (bound : Nat) : (declaration bound).Reads StmtRead := by
  have hrest : ∀ (isFinal : Bool) (start : Span), (do
      let type ← writtenType bound
      let names ← declarators bound
      let close ← symbol .semi
      pure (.declare isFinal type names (start.merge close)) : Parser Stmt).Reads fun us s rest =>
        StmtRead ((if isFinal then [.keyword .kwFinal] else []) ++ us) s rest := by
    intro isFinal start
    refine (reads_writtenType bound).bind fun type us htype =>
      (reads_declarators bound).bind fun ds vs hds => reads_symbol fun close =>
        reads_pure fun _ => .of_closed ?_ rfl
    have hwhole : (Stmt.declare isFinal type ds (start.merge close)).Spelled _ :=
      .declare htype hds
    simpa using hwhole
  refine reads_peek fun first => Reads.anywhere (reads_acceptKeyword ?_ ?_)
  · exact hrest true first.span
  · exact (hrest false first.span).mono fun _ _ _ h _ => h

private theorem reads_returning (bound : Nat) (start : Span) :
    (returning bound start).Reads fun us s rest => StmtRead (.keyword .kwReturn :: us) s rest := by
  refine reads_peek fun t => Reads.anywhere (.ite ?_ ?_)
  · exact reads_symbol fun _ => reads_pure fun _ => .of_closed .returnNothing rfl
  · exact (reads_expression bound).bind fun value us hvalue => reads_symbol fun _ =>
      reads_pure fun _ => .of_closed (.returnValue hvalue) rfl

private theorem reads_assignment (bound : Nat) (start : Span) {target : Expr} {us : List TokenKind}
    (htarget : target.Spelled us) :
    (assignment bound start target).Reads fun vs s rest =>
      us.head? ≠ some (.symbol .lbrace) → StmtRead (us ++ .symbol .assign :: vs) s rest := by
  unfold assignment
  split
  · rename_i hplace
    exact (reads_expression bound).bind fun value vs hvalue => reads_symbol fun _ =>
      reads_pure fun _ hhead => .of_closed (.assign hplace hhead htarget hvalue) rfl
  · exact reads_fail

/-- An assignment or a call is read from its spelling, unless a block starts there. -/
theorem reads_assignmentOrCall (bound : Nat) :
    (assignmentOrCall bound).Reads fun us s rest =>
      us.head? ≠ some (.symbol .lbrace) → StmtRead us s rest := by
  refine reads_peek fun first => Reads.anywhere ((reads_expression bound).bind fun e us he =>
    reads_acceptSymbol ?_ ?_)
  · refine (reads_assignment bound first.span he).mono fun vs s rest h hhead => h ?_
    rwa [List.head?_append_of_ne_nil _ he.ne_nil] at hhead
  · rw [if_neg (by simp)]
    split
    · rename_i hcall
      refine reads_symbol fun _ => reads_pure fun rest _ hhead => ?_
      rw [List.head?_append_of_ne_nil _ he.ne_nil] at hhead
      exact .of_closed (.call hcall hhead he) rfl
    · exact reads_fail

private theorem reads_direction :
    direction.Reads fun us d _ => us = [.keyword d.keyword] :=
  reads_acceptKeyword (reads_pure fun _ => rfl)
    (reads_acceptKeyword (reads_pure fun _ _ => rfl) reads_failExpected)

section

variable {nested : Parser Stmt} (hn : nested.Reads StmtRead) (bound : Nat)

include hn

/-- A branch is read with as much behind it as belongs to it. -/
theorem reads_branch (start : Span) :
    (branch nested bound start).Reads fun us s rest =>
      StmtRead (.keyword .kwIf :: us) s rest := by
  refine (reads_expression bound).bind fun condition us hcondition => reads_keyword fun _ =>
    hn.bind_rest fun thenBranch vs => reads_acceptKeyword ?_ ?_
  · refine hn.bind_rest fun elseBranch ws => reads_lastSpan fun stop => reads_pure ?_
    rintro rest ⟨helse, hrest⟩ ⟨hthen, hopen⟩
    have hclosed : thenBranch.endsOpen = false := by
      by_contra h
      exact hopen (by simpa using h) rfl
    rw [List.append_nil]
    exact ⟨.ifElse hcondition hclosed hthen helse, hrest⟩
  · refine reads_lastSpan fun stop => reads_pure ?_
    rintro rest hnone ⟨hthen, -⟩
    rw [List.append_nil]
    exact ⟨.ifThen hcondition hthen, fun _ => hnone⟩

/-- A loop is read with the statement that is its body. -/
theorem reads_countedLoop (start : Span) :
    (countedLoop nested bound start).Reads fun us s rest =>
      StmtRead (.keyword .kwFor :: us) s rest := by
  refine reads_identifier.bind ?_
  rintro counter _ rfl
  refine reads_symbol fun _ => (reads_expression bound).bind fun first us hfirst =>
    reads_direction.bind ?_
  rintro direction _ rfl
  refine (reads_expression bound).bind fun last vs hlast => reads_keyword fun _ =>
    hn.bind_rest fun body ws => reads_pure ?_
  rintro rest ⟨hbody, hrest⟩
  rw [List.append_nil]
  exact ⟨.loop hfirst hlast hbody, hrest⟩

/-- A block is read from its spelling if the statements in it are. -/
theorem reads_blockOf : (blockOf nested bound).Reads fun us b _ => b.Spelled us := by
  have hitem : nested.Reads fun us s _ => s.Spelled us := hn.mono fun _ _ _ h => h.1
  refine reads_symbol fun _ => (reads_manyUntil hitem endsBlock bound).bind_rest fun stmts us =>
    reads_symbol fun _ => reads_pure fun _ hstmts => .mk hstmts.1

/-- A statement of any sort is read from its spelling. -/
theorem reads_statementOf : (statementOf nested bound).Reads StmtRead := by
  refine reads_peek fun ⟨kind, span⟩ => ?_
  dsimp only
  split
  · refine Reads.anywhere ((reads_blockOf hn bound).bind ?_)
    rintro _ _ (⟨hstmts⟩)
    refine reads_pure fun _ => .of_closed ?_ rfl
    rw [List.append_nil]
    exact .block hstmts
  · exact readsAhead_advance (by simp) fun _ => reads_branch hn bound span
  · exact readsAhead_advance (by simp) fun _ => reads_countedLoop hn bound span
  · exact readsAhead_advance (by simp) fun _ => reads_symbol fun _ => reads_pure fun _ =>
      .of_closed .breakLoop rfl
  · exact readsAhead_advance (by simp) fun _ => reads_symbol fun _ => reads_pure fun _ =>
      .of_closed .continueLoop rfl
  · exact readsAhead_advance (by simp) fun _ => reads_returning bound span
  · rename_i hbrace _ _ _ _ _
    refine Reads.ahead (reads_peekAll fun ahead => .ite ?_ ?_)
    · exact (reads_declaration bound).mono fun _ _ _ h _ => h
    · refine (reads_assignmentOrCall bound).mono fun us s rest h hkind => h fun hhead => ?_
      refine hbrace ?_
      have hwhole : (us ++ rest).head? = some (.symbol .lbrace) := by
        rw [List.head?_append, hhead, Option.some_or]
      rw [← hkind, hwhole, Option.getD_some]

end

/-- Statements are read from their spelling. -/
theorem reads_statement (bound : Nat) : (statement bound).Reads StmtRead := by
  induction bound with
  | zero => exact reads_exhausted
  | succ bound ih => exact reads_statementOf ih (bound + 1)

/-- A block is read from its spelling, whatever the bound. -/
theorem reads_block (bound : Nat) : (block bound).Reads fun us b _ => b.Spelled us :=
  reads_blockOf (reads_statement bound) bound

/-! ## Members and classes -/

private theorem reads_paramGroup (bound : Nat) :
    (paramGroup bound).Reads fun us ps _ => Param.GroupSpelled us ps := by
  refine (reads_writtenType bound).bind fun type us htype =>
    (reads_separated reads_identifier .comma bound).bind fun names vs hnames =>
      reads_pure fun _ => ?_
  rw [List.append_nil]
  refine .mk ?_ ?_
  · intro p hp
    obtain ⟨name, -, rfl⟩ := List.mem_map.mp hp
    exact htype
  · simpa [Function.comp_def] using hnames

/-- Parameters are read from their spelling. -/
theorem reads_params (bound : Nat) :
    (params bound).Reads fun us ps _ => Param.ListSpelled us ps := by
  have hclose : ∀ (groups : List (List Param)) us, Listed .semi Param.GroupSpelled us groups →
      (do
        let _ ← symbol .rparen
        pure groups.flatten : Parser (List Param)).Reads fun vs ps _ =>
          Param.ListSpelled (.symbol .lparen :: (us ++ vs)) ps := by
    intro groups us hus
    exact reads_symbol fun _ => reads_pure fun _ => .mk hus
  refine reads_symbol fun _ => reads_peek fun t => Reads.anywhere (.ite ?_ ?_)
  · exact hclose [] [] .none
  · exact (reads_separated (reads_paramGroup bound) .semi bound).bind fun groups us hus =>
      hclose groups us (.some hus)

/-- Modifiers are read in any order and any number. -/
theorem reads_modifiers (rounds : Nat) (m : Modifiers) :
    (modifiers rounds m).Reads fun us m' _ =>
      (∀ k ∈ us, k = .keyword .kwStatic ∨ k = .keyword .kwFinal) ∧
      (m'.isStatic = true ↔ m.isStatic = true ∨ .keyword .kwStatic ∈ us) ∧
      (m'.isFinal = true ↔ m.isFinal = true ∨ .keyword .kwFinal ∈ us) := by
  induction rounds generalizing m with
  | zero => exact reads_exhausted
  | succ rounds ih =>
    refine reads_acceptKeyword ?_ (reads_acceptKeyword ?_ (reads_pure fun _ => by simp))
    · exact (ih ⟨true, m.isFinal⟩).mono fun us m' _ ⟨hwords, hstatic, hfinal⟩ =>
        ⟨by simpa using hwords, by simp [hstatic], by simp [hfinal]⟩
    · exact (ih ⟨m.isStatic, true⟩).mono fun us m' _ ⟨hwords, hstatic, hfinal⟩ _ =>
        ⟨by simpa using hwords, by simp [hstatic], by simp [hfinal]⟩

private theorem reads_resultType (bound : Nat) :
    (resultType bound).Reads fun us result _ => ResultSpelled us result := by
  refine reads_acceptKeyword (reads_pure fun _ => .void) ?_
  refine (reads_writtenType bound).bind fun type us htype => reads_pure fun _ _ => ?_
  rw [List.append_nil]
  exact .type htype

private theorem reads_destructor (bound : Nat) (start : Span) :
    (destructor bound start).Reads fun us m _ => m.Spelled (.symbol .tilde :: us) := by
  refine reads_identifier.bind ?_
  rintro name _ rfl
  refine reads_symbol fun _ => reads_symbol fun _ => (reads_block bound).bind fun body us hbody =>
    reads_pure fun _ => ?_
  rw [List.append_nil]
  exact .dtor hbody

private theorem reads_constructorDecl (bound : Nat) (start : Span) :
    (constructorDecl bound start).Reads fun us m _ => m.Spelled us := by
  refine reads_identifier.bind ?_
  rintro name _ rfl
  refine (reads_params bound).bind fun formals us hformals =>
    (reads_block bound).bind fun body vs hbody => reads_pure fun _ => ?_
  rw [List.append_nil, List.singleton_append]
  exact .ctor hformals hbody

private theorem reads_methodDecl (bound : Nat) (start : Span) {isStatic : Bool}
    {result : Option WrittenType} {ks ms : List TokenKind}
    (hks : Modifiers.Spelled ks ⟨isStatic, false⟩) (hresult : ResultSpelled ms result) :
    (methodDecl bound start isStatic result).Reads fun us m _ => m.Spelled (ks ++ ms ++ us) := by
  refine reads_identifier.bind ?_
  rintro name _ rfl
  refine (reads_params bound).bind fun formals us hformals =>
    (reads_block bound).bind fun body vs hbody => reads_pure fun _ => ?_
  rw [List.append_nil, List.singleton_append]
  exact .method hks hresult hformals hbody

private theorem reads_attributeDecl (bound : Nat) (start : Span) {m : Modifiers}
    {type : WrittenType}
    {ks ms : List TokenKind} (hks : Modifiers.Spelled ks m) (htype : type.Spelled ms) :
    (attributeDecl bound start m type).Reads fun us member _ =>
      member.Spelled (ks ++ ms ++ us) := by
  refine (reads_declarators bound).bind fun ds us hds => reads_symbol fun close =>
    reads_pure fun _ => ?_
  rw [← List.append_assoc]
  exact .attribute hks htype hds

/-- A member that starts with modifiers or a type is read from its spelling. -/
theorem reads_typedMember (bound : Nat) (start : Span) :
    (typedMember bound start).Reads fun us m _ => m.Spelled us := by
  refine (reads_modifiers bound ⟨false, false⟩).bind ?_
  rintro m us ⟨hwords, hstatic, hfinal⟩
  have hm : Modifiers.Spelled us m := ⟨hwords, by simpa using hstatic, by simpa using hfinal⟩
  refine (reads_resultType bound).bind fun result vs hresult => reads_peekAll fun ahead => ?_
  simp only [← List.append_assoc]
  refine .ite ?_ ?_
  · split
    · exact reads_fail
    · rename_i hnotFinal
      have hmethod : Modifiers.Spelled us ⟨m.isStatic, false⟩ := by
        rw [← eq_false_of_ne_true hnotFinal]
        exact hm
      exact reads_methodDecl bound start hmethod hresult
  · cases hresult with
    | void => exact reads_fail
    | type htype => exact reads_attributeDecl bound start hm htype

/-- A member is read from its spelling. -/
theorem reads_member (bound : Nat) : (member bound).Reads fun us m _ => m.Spelled us := by
  refine reads_peek fun t => Reads.anywhere (reads_peekAll fun ahead =>
    .ite (reads_acceptSymbol ?_ ?_) reads_failExpected)
  · exact reads_destructor bound t.span
  · rw [if_neg (by simp)]
    refine Reads.mono (Q := fun us m _ => m.Spelled us) (.ite ?_ ?_) fun _ _ _ h _ => h
    · exact reads_constructorDecl bound t.span
    · exact reads_typedMember bound t.span

private theorem reads_parentClass :
    parentClass.Reads fun us parent _ => ParentSpelled us parent := by
  refine reads_acceptKeyword (reads_identifier.bind ?_) (reads_pure fun _ _ => .none)
  rintro parent _ rfl
  exact reads_pure fun _ => .some

/-- A class is read from its spelling. -/
theorem reads_classDecl (bound : Nat) : (classDecl bound).Reads fun us c _ => c.Spelled us := by
  refine reads_keyword fun _ => reads_identifier.bind ?_
  rintro name _ rfl
  refine reads_parentClass.bind fun parent us hparent => reads_symbol fun _ =>
    (reads_manyUntil (reads_member bound) endsClass bound).bind_rest fun members vs =>
      reads_symbol fun _ => reads_pure fun _ hmembers => .mk hparent hmembers.1

/-- The classes are read up to the end of file. -/
theorem reads_program (bound : Nat) :
    (program bound).Reads fun us p rest => p.Spelled us ∧ rest.head?.getD .eof = .eof := by
  refine reads_peek fun first => Reads.anywhere
    ((reads_manyUntil (reads_classDecl bound) endsProgram bound).bind_rest fun classes us =>
      reads_peek fun stop => Reads.anywhere (reads_pure fun rest hclasses => ?_))
  rw [List.append_nil, Program.Spelled]
  simpa [endsProgram] using hclasses

end Parser

/-- A cursor at the start has the kinds before the first end of file ahead. -/
theorem Cursor.kinds_ofTokens (ts : List Token) :
    (Cursor.ofTokens ts).kinds = Token.kindsBeforeEof ts := by
  rw [Token.kindsBeforeEof, List.takeWhile_map]
  rfl

/-- A program is parsed up to the end of the tokens. -/
theorem Program.exists_end_of_ofTokens {ts : List Token} {p : Program}
    (h : Program.ofTokens ts = .ok p) :
    ∃ c, Parser.program (ts.length + 1) (Cursor.ofTokens ts) = .ok (p, c) ∧ c.ahead = [] := by
  obtain ⟨c, hparse⟩ := Parser.run_eq_ok_iff.mp h
  obtain ⟨us, -, -, hend⟩ := Parser.reads_program _ _ _ _ hparse
  rw [Cursor.kinds_head?] at hend
  exact ⟨c, hparse, Cursor.ahead_of_eof hend⟩

/-- What a token list is parsed to is spelled by the tokens before its first end of file. -/
theorem Program.spelled_of_ofTokens {ts : List Token} {p : Program}
    (h : Program.ofTokens ts = .ok p) : p.Spelled (Token.kindsBeforeEof ts) := by
  obtain ⟨c, hparse, hend⟩ := Program.exists_end_of_ofTokens h
  obtain ⟨us, hus, hp, -⟩ := Parser.reads_program _ _ _ _ hparse
  rw [← Cursor.kinds_ofTokens, Cursor.kinds, hus.ahead, hend, List.append_nil]
  exact hp

end ClassCheck
