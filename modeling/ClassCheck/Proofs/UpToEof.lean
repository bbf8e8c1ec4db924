import ClassCheck.Proofs.LayoutParsing
import ClassCheck.Proofs.ParsedSpelling

/-!
# Parsing stops at the first end of file

A parser sees nothing behind the first end of file: to cut the tokens off there first and parse
then is the same as to parse first and cut what is left. Whether it succeeds or fails, on the way it
moves over no end of file, and each round of a loop and each step into a nested expression or
statement consumes a token. So a bound on rounds and on nesting that is greater than the number of
tokens is never used up, and two parsers with such bounds answer alike. All this is carried through
the parsers together, in one relation between a parser on tokens that are cut off and a parser on
tokens that are not.
-/

namespace ClassCheck

/-! ## Cursors that are cut off -/

namespace Cursor

/-- The cursor with nothing behind the first end of file, where the tokens end now. -/
def cut (c : Cursor) : Cursor := ⟨c.ahead, c.stop, c.last⟩

/-- The token ahead is the same after the cut. -/
theorem current_cut (c : Cursor) : c.cut.current = c.current := by
  by_cases h : c.current.kind = .eof
  · rw [current_of_eof h, cut, ahead_of_eof h]
    rfl
  · rw [cut, ahead_of_ne_eof h]
    rfl

/-- A cursor can be moved first and cut off then, or the other way round. -/
theorem cut_advance (c : Cursor) : c.cut.advance = c.advance.cut := by
  by_cases h : c.current.kind = .eof
  · rw [advance_of_eof h, advance_of_eof (c.current_cut ▸ h)]
  · have hmove := reaches_advance h
    have hcut : c.cut.advance = ⟨c.advance.ahead, c.stop, c.current.span⟩ := by
      rw [cut, ahead_of_ne_eof h]
      exact if_neg h
    rw [hcut, cut, hmove.stop_eq, hmove.last_eq]
    rfl

end Cursor

namespace Parser

/-- An answer of a parser with the tokens that are left cut off. -/
def cutRest {α : Type} : Except Rejection (α × Cursor) → Except Rejection (α × Cursor)
  | .ok (a, c) => .ok (a, c.cut)
  | .error r => .error ⟨r.error, r.cursor.cut⟩

/-- A run that started at a cursor has ended at one that it has come to. It has yielded a value
behind at least so many tokens, or found an error other than that a bound is used up. -/
def Ends {α : Type} (o : Cursor) (least : Nat) : Except Rejection (α × Cursor) → Prop
  | .ok (_, c) => ∃ us, o.Reaches us c ∧ least ≤ us.length
  | .error r => r.error.fault ≠ .exhausted ∧ ∃ us, o.Reaches us r.cursor

/-- A run that goes on where another one has come to counts the tokens of both. -/
theorem Ends.behind {α : Type} {o c : Cursor} {us : List Token} {least least' : Nat}
    {answer : Except Rejection (α × Cursor)} (h : Ends c least answer) (hc : o.Reaches us c)
    (hleast : least' ≤ us.length + least) : Ends o least' answer := by
  cases answer with
  | ok answer =>
    obtain ⟨vs, hvs, hlength⟩ := h
    refine ⟨us ++ vs, hc.trans hvs, ?_⟩
    rw [List.length_append]
    omega
  | error r =>
    obtain ⟨hfault, vs, hvs⟩ := h
    exact ⟨hfault, us ++ vs, hc.trans hvs⟩

/-- Of `n` tokens before the end, `i` are behind and the given one is ahead. On the tokens cut off
there the first parser answers what the second does on all of them, and the run ends, if it
succeeds, with `j` tokens behind. -/
def MatchesAt {α : Type} (t : Token) (n i j : Nat) (p q : Parser α) : Prop :=
  ∀ c, c.current = t → c.ahead.length + i ≤ n →
    p c.cut = cutRest (q c) ∧ Ends c (j - i) (q c)

/-- Two parsers answer alike, whatever token is ahead. -/
def Matches {α : Type} (n i j : Nat) (p q : Parser α) : Prop := ∀ t, MatchesAt t n i j p q

section

variable {α β : Type} {t : Token} {n i j k : Nat} {p q : Parser α} {f g : α → Parser β}

/-- There are not as many tokens. This is the only way that a used-up bound is dealt with. -/
theorem matches_of_lt (h : n < i) : Matches n i j p q := by
  intro t c _ hlength
  omega

/-- Yielding a value moves over no token. -/
theorem matches_pure {a : α} (h : j ≤ i) : Matches n i j (pure a : Parser α) (pure a) :=
  fun _ c _ _ => ⟨rfl, [], c.reaches_self, by simp [h]⟩

/-- A parser may fail for any reason but a used-up bound. -/
theorem matches_fail {fault : SyntaxFault} (hfault : fault ≠ .exhausted) (span : Span) :
    Matches n i j (fail fault span : Parser α) (fail fault span) :=
  fun _ c _ _ => ⟨rfl, hfault, [], c.reaches_self⟩

/-- So may one that asks for something else than the token ahead, which the cut leaves as it is. -/
theorem matches_failExpected (what : Expectation) :
    Matches n i j (failExpected what : Parser α) (failExpected what) := by
  intro t c _ _
  refine ⟨?_, nofun, [], c.reaches_self⟩
  change (Except.error _ : Except Rejection (α × Cursor)) = _
  rw [Cursor.current_cut]
  rfl

/-- The second parser goes on where the first one stopped. -/
theorem MatchesAt.bind (hp : MatchesAt t n i k p q) (hf : ∀ a, Matches n k j (f a) (g a)) :
    MatchesAt t n i j (p >>= f) (q >>= g) := by
  intro c hc hlength
  obtain ⟨heq, hends⟩ := hp c hc hlength
  rw [bind_apply, bind_apply, heq]
  cases hq : q c with
  | error r =>
    rw [hq] at hends
    exact ⟨rfl, hends⟩
  | ok answer =>
    obtain ⟨a, c'⟩ := answer
    rw [hq] at hends
    obtain ⟨us, hus, hk⟩ := hends
    -- The tokens that the first parser has consumed are not ahead any more.
    have hrest : c'.ahead.length + k ≤ n := by
      rw [hus.ahead, List.length_append] at hlength
      omega
    obtain ⟨heq', hends'⟩ := hf a c'.current c' rfl hrest
    exact ⟨heq', hends'.behind hus (by omega)⟩

/-- The same, whatever token is ahead. -/
theorem Matches.bind (hp : Matches n i k p q) (hf : ∀ a, Matches n k j (f a) (g a)) :
    Matches n i j (p >>= f) (q >>= g) := fun t => (hp t).bind hf

/-- A test that does not look at the tokens takes the same side in both. -/
theorem MatchesAt.ite {p' q' : Parser α} {b : Prop} [Decidable b] (hp : MatchesAt t n i j p q)
    (hp' : MatchesAt t n i j p' q') :
    MatchesAt t n i j (if b then p else p') (if b then q else q') := by
  split
  · exact hp
  · exact hp'

private theorem Matches.ite {p' q' : Parser α} {b : Prop} [Decidable b] (hp : Matches n i j p q)
    (hp' : Matches n i j p' q') : Matches n i j (if b then p else p') (if b then q else q') :=
  fun t => (hp t).ite (hp' t)

/-- It is enough to know of fewer tokens that they are behind. -/
theorem Matches.mono {j' : Nat} (hp : Matches n i j p q) (h : j' ≤ j) : Matches n i j' p q := by
  intro t c hc hlength
  obtain ⟨heq, hends⟩ := hp t c hc hlength
  exact ⟨heq, hends.behind c.reaches_self (by omega)⟩

end

/-! ## Single tokens -/

section

variable {α : Type} {t : Token} {n i j : Nat}

/-- A parser that looks at the token ahead goes on with the same one in both. -/
theorem matches_peek {f g : Token → Parser α} (h : ∀ t, MatchesAt t n i j (f t) (g t)) :
    Matches n i j (peek >>= f) (peek >>= g) := by
  intro t c hc hlength
  have hcut : (peek >>= f) c.cut = f c.current c.cut := by
    rw [bind_apply, peek, Cursor.current_cut]
  rw [hcut]
  exact h c.current c rfl hlength

/-- The tokens ahead are seen up to the end only. -/
theorem matches_peekAll {f g : List Token → Parser α}
    (h : ∀ ts : List Token, MatchesAt t n i j (f (ts.takeWhile (·.kind ≠ .eof))) (g ts)) :
    MatchesAt t n i j (peekAll >>= f) (peekAll >>= g) :=
  fun c hc hlength => h c.tokens c hc hlength

/-- The token consumed last is not cut off. -/
theorem matches_lastSpan : Matches n i i lastSpan lastSpan :=
  fun _ c _ _ => ⟨rfl, [], c.reaches_self, by simp⟩

/-- The token that was looked at is consumed. -/
theorem matchesAt_advance {f g : Token → Parser α} (ht : t.kind ≠ .eof)
    (h : Matches n (i + 1) j (f t) (g t)) : MatchesAt t n i j (advance >>= f) (advance >>= g) := by
  intro c hc hlength
  subst hc
  have hmove := Cursor.reaches_advance ht
  have hrest : c.advance.ahead.length + (i + 1) ≤ n := by
    rw [hmove.ahead, List.length_append, List.length_singleton] at hlength
    omega
  have hcut : (advance >>= f) c.cut = f c.current c.advance.cut := by
    rw [bind_apply, advance, Cursor.current_cut, Cursor.cut_advance]
  obtain ⟨heq, hends⟩ := h c.advance.current c.advance rfl hrest
  exact ⟨hcut.trans heq, hends.behind hmove (by simp; omega)⟩

/-- To move over a token if it is of some kind is to look first and to move then. -/
theorem accept_bind (kind : TokenKind) (f : Bool → Parser α) :
    (accept kind >>= f) = (peek >>= fun t =>
      if t.kind = kind then advance >>= fun _ => f true else f false) := by
  funext c
  rw [bind_apply, accept_apply, bind_apply, peek]
  dsimp only
  by_cases hkind : c.current.kind = kind
  · rw [if_pos hkind, if_pos hkind]
    rfl
  · rw [if_neg hkind, if_neg hkind]

/-- A token that may be there is counted only where it is. -/
theorem matches_accept {kind : TokenKind} (hkind : kind ≠ .eof) {f g : Bool → Parser α}
    (hyes : Matches n (i + 1) j (f true) (g true)) (hno : Matches n i j (f false) (g false)) :
    Matches n i j (accept kind >>= f) (accept kind >>= g) := by
  rw [accept_bind, accept_bind]
  refine matches_peek fun t => ?_
  by_cases ht : t.kind = kind
  · rw [if_pos ht, if_pos ht]
    exact matchesAt_advance (ht ▸ hkind) hyes
  · rw [if_neg ht, if_neg ht]
    exact hno t

private theorem matches_acceptSymbol {sign : Symbol} {f g : Bool → Parser α}
    (hyes : Matches n (i + 1) j (f true) (g true)) (hno : Matches n i j (f false) (g false)) :
    Matches n i j (acceptSymbol sign >>= f) (acceptSymbol sign >>= g) :=
  matches_accept (by simp) hyes hno

private theorem matches_acceptKeyword {word : Keyword} {f g : Bool → Parser α}
    (hyes : Matches n (i + 1) j (f true) (g true)) (hno : Matches n i j (f false) (g false)) :
    Matches n i j (acceptKeyword word >>= f) (acceptKeyword word >>= g) :=
  matches_accept (by simp) hyes hno

/-- A token that has to be there is counted. -/
theorem matches_expect {kind : TokenKind} (hkind : kind ≠ .eof) :
    Matches n i (i + 1) (expect kind) (expect kind) := by
  refine matches_peek fun t => ?_
  by_cases ht : t.kind = kind
  · rw [if_pos ht]
    exact matchesAt_advance (ht ▸ hkind) (matches_pure le_rfl)
  · rw [if_neg ht]
    exact matches_failExpected _ t

private theorem matches_symbol (sign : Symbol) : Matches n i (i + 1) (symbol sign) (symbol sign) :=
  matches_expect (by simp)

private theorem matches_keyword (word : Keyword) :
    Matches n i (i + 1) (keyword word) (keyword word) :=
  matches_expect (by simp)

/-- So is a name. -/
theorem matches_identifier : Matches n i (i + 1) identifier identifier := by
  refine matches_peek fun ⟨kind, span⟩ => ?_
  dsimp only
  split
  · exact matchesAt_advance (by simp) (matches_pure le_rfl)
  · exact matches_failExpected _ _

/-- A value that cannot be read is another reason to fail than a used-up bound. -/
theorem matches_lift {value : Except SyntaxFault α} (hvalue : value ≠ .error .exhausted)
    (span : Span) : Matches n i i (lift value span) (lift value span) := by
  cases value with
  | ok a => exact matches_pure le_rfl
  | error fault => exact matches_fail (fun h => hvalue (congrArg Except.error h)) span

end

/-! ## Literals -/

private theorem sizeValue_ne_exhausted (text : String) : sizeValue text ≠ .error .exhausted := by
  unfold sizeValue
  split <;> simp

private theorem integerValue_ne_exhausted (text : String) :
    integerValue text ≠ .error .exhausted := by
  unfold integerValue
  split <;> simp

private theorem floatValue_ne_exhausted (text : String) : floatValue text ≠ .error .exhausted := by
  unfold floatValue
  split <;> simp

private theorem stringValue_ne_exhausted (text : String) :
    stringValue text ≠ .error .exhausted := by
  have hmap : ∀ {α β : Type} {f : α → β} {value : Except SyntaxFault α},
      value ≠ .error .exhausted → value.map f ≠ .error .exhausted := by
    intro α β f value hvalue h
    cases value with
    | ok a => cases h
    | error fault => exact hvalue (congrArg Except.error (Except.error.inj h))
  have hbody : ∀ cs, unescape cs ≠ .error .exhausted := by
    intro cs
    fun_induction unescape cs with
    | case1 => nofun
    | case2 => nofun
    | case3 c cs d hd ih => exact hmap ih
    | case4 c cs hd => nofun
    | case5 c cs _ _ ih => exact hmap ih
  unfold stringValue
  split
  · exact hmap (hbody _)
  · nofun

/-! ## Repetition -/

section

variable {α : Type} {n i b b' : Nat} {item item' : Parser α}

/-- Items with a sign between them: each round consumes one, so that the rounds do not run out
before the tokens do. -/
theorem matches_separated (sign : Symbol) (h : ∀ k, i ≤ k → Matches n k (k + 1) item item')
    (hb : n < b + i) (hb' : n < b' + i) :
    Matches n i (i + 1) (separated sign item b) (separated sign item' b') := by
  induction b generalizing i b' with
  -- A bound that is used up would need more tokens behind than there are.
  | zero => exact matches_of_lt (by omega)
  | succ b ih =>
    cases b' with
    | zero => exact matches_of_lt (by omega)
    | succ b' =>
      refine (h i le_rfl).bind fun a => matches_acceptSymbol ?_ (matches_pure le_rfl)
      refine (ih (fun k hk => h k (by omega)) (by omega) (by omega)).bind fun as => ?_
      exact matches_pure (by omega)

/-- Items up to a certain token, with a round for each of them. -/
theorem matches_manyUntil (ends : TokenKind → Bool)
    (h : ∀ k, i ≤ k → Matches n k (k + 1) item item') (hb : n < b + i) (hb' : n < b' + i) :
    Matches n i i (manyUntil ends item b) (manyUntil ends item' b') := by
  induction b generalizing i b' with
  | zero => exact matches_of_lt (by omega)
  | succ b ih =>
    cases b' with
    | zero => exact matches_of_lt (by omega)
    | succ b' =>
      refine matches_peek fun t => .ite (matches_pure le_rfl t) ?_
      refine (h i le_rfl t).bind fun a => ?_
      refine (ih (fun k hk => h k (by omega)) (by omega) (by omega)).bind fun as => ?_
      exact matches_pure (by omega)

end

/-! ## Types -/

section

variable {n i b b' : Nat}

/-- The inside of a written type is one token. -/
theorem matches_baseType : Matches n i (i + 1) baseType baseType := by
  refine matches_peek fun t => ?_
  cases hbase : baseType? t with
  | none => exact matches_failExpected _ t
  | some type =>
    have ht : t.kind ≠ .eof := by
      intro heof
      rw [baseType?, heof] at hbase
      cases hbase
    exact matchesAt_advance ht (matches_pure le_rfl)

/-- The token where the number is asked for is consumed whatever it is, but at the end of file the
parser stays and fails. -/
theorem matches_arraySize : Matches n i (i + 1) arraySize arraySize := by
  rintro ⟨kind, span⟩
  by_cases heof : kind = .eof
  · subst heof
    have hfails : ∀ c : Cursor, c.current = ⟨.eof, span⟩ →
        arraySize c = .error ⟨⟨.expected .arraySize .eof, span⟩, c⟩ := by
      intro c hc
      rw [arraySize, bind_apply, advance, Cursor.advance_of_eof (congrArg Token.kind hc), hc]
      rfl
    intro c hc _
    rw [hfails c hc, hfails c.cut (c.current_cut.trans hc)]
    exact ⟨rfl, by simp, [], c.reaches_self⟩
  · refine matchesAt_advance heof ?_
    dsimp only
    split
    · exact matches_lift (sizeValue_ne_exhausted _) _
    · exact matches_fail (by simp) _

/-- Each array size takes a round, and a bracket at least. -/
theorem matches_arraySizes (type : WrittenType) (hb : n < b + i) (hb' : n < b' + i) :
    Matches n i i (arraySizes b type) (arraySizes b' type) := by
  induction b generalizing i b' type with
  | zero => exact matches_of_lt (by omega)
  | succ b ih =>
    cases b' with
    | zero => exact matches_of_lt (by omega)
    | succ b' =>
      refine matches_acceptSymbol ?_ (matches_pure le_rfl)
      refine matches_arraySize.bind fun size => (matches_symbol _).bind fun close => ?_
      exact (ih _ (by omega) (by omega)).mono (by omega)

/-- A written type consumes a token, whatever stands behind it. -/
theorem matches_writtenType (hb : n < b + i) (hb' : n < b' + i) :
    Matches n i (i + 1) (writtenType b) (writtenType b') := by
  refine matches_baseType.bind fun base =>
    (matches_arraySizes base (by omega) (by omega)).bind fun type => ?_
  refine matches_acceptSymbol ?_ (matches_pure le_rfl)
  exact matches_lastSpan.bind fun mark => matches_pure (by omega)

end

/-! ## Expressions -/

/-- Behind `i` of `n` tokens the bounds of two parsers are enough, and what nests in them answers
alike behind more tokens. -/
structure Ready {α : Type} (n i b b' : Nat) (nested nested' : Parser α) : Prop where
  /-- The first bound is greater than what is left. -/
  bound : n < b + i
  /-- So is the second. -/
  bound' : n < b' + i
  /-- What nests is parsed alike behind at least one token more. -/
  nested : ∀ k, i < k → Matches n k (k + 1) nested nested'

/-- What is ready behind some tokens is ready behind more of them. -/
theorem Ready.later {α : Type} {n i k b b' : Nat} {nested nested' : Parser α}
    (h : Ready n i b b' nested nested') (hk : i ≤ k) : Ready n k b b' nested nested' := by
  obtain ⟨hb, hb', hnested⟩ := h
  exact ⟨by omega, by omega, fun l hl => hnested l (by omega)⟩

section

variable {n i b b' : Nat} {nested nested' : Parser Expr} (h : Ready n i b b' nested nested')

include h

private theorem matches_items {k : Nat} (hk : i < k) :
    Matches n k (k + 1) (separated .comma nested b) (separated .comma nested' b') :=
  matches_separated _ (fun l hl => h.nested l (by omega)) (h.later hk.le).bound
    (h.later hk.le).bound'

/-- Arguments stand in parentheses, so what is nested in them comes behind a token. -/
theorem matches_arguments : Matches n i (i + 1) (arguments nested b) (arguments nested' b') := by
  have hclose : ∀ {k}, i + 1 ≤ k → ∀ args : List Expr,
      Matches n k (i + 1) (symbol .rparen >>= fun _ => pure args)
        (symbol .rparen >>= fun _ => pure args) :=
    fun hk args => (matches_symbol _).bind fun _ => matches_pure (by omega)
  refine (matches_symbol _).bind fun _ => matches_peek fun t => .ite ?_ ?_
  · exact (matches_pure le_rfl t).bind (hclose le_rfl)
  · exact (matches_items h (by omega) t).bind (hclose (by omega))

private theorem matches_creation (start : Span) :
    Matches n i (i + 1) (creation nested b start) (creation nested' b' start) :=
  matches_identifier.bind fun _ => (matches_arguments (h.later (by omega))).bind fun _ =>
    matches_lastSpan.bind fun _ => matches_pure (by omega)

private theorem matches_parenthesized {k : Nat} (hk : i < k) (start : Span) :
    Matches n k (k + 1) (parenthesized nested start) (parenthesized nested' start) :=
  (h.nested k hk).bind fun _ => (matches_symbol _).bind fun _ => matches_pure (by omega)

private theorem matches_arrayElements {k : Nat} (hk : i < k) (start : Span) :
    Matches n k (k + 1) (arrayElements nested b start) (arrayElements nested' b' start) :=
  (matches_items h hk).bind fun _ => (matches_symbol _).bind fun _ => matches_pure (by omega)

/-- A primary expression consumes a token before it nests anything. -/
theorem matches_primary : Matches n i (i + 1) (primary nested b) (primary nested' b') := by
  refine matches_peek fun ⟨kind, span⟩ => ?_
  dsimp only
  split
  · exact matchesAt_advance (by simp)
      ((matches_lift (integerValue_ne_exhausted _) _).bind fun _ => matches_pure le_rfl)
  · exact matchesAt_advance (by simp)
      ((matches_lift (floatValue_ne_exhausted _) _).bind fun _ => matches_pure le_rfl)
  · exact matchesAt_advance (by simp)
      ((matches_lift (stringValue_ne_exhausted _) _).bind fun _ => matches_pure le_rfl)
  · exact matchesAt_advance (by simp) (matches_pure le_rfl)
  · exact matchesAt_advance (by simp) (matches_pure le_rfl)
  · exact matchesAt_advance (by simp) (matches_pure le_rfl)
  · exact matchesAt_advance (by simp) (matches_pure le_rfl)
  · exact matchesAt_advance (by simp) (matches_pure le_rfl)
  · exact matchesAt_advance (by simp) ((matches_creation (h.later (by omega)) span).mono (by omega))
  · exact matchesAt_advance (by simp) ((matches_parenthesized h (by omega) span).mono (by omega))
  · exact matchesAt_advance (by simp) ((matches_arrayElements h (by omega) span).mono (by omega))
  · exact matches_failExpected _ _

private theorem matches_memberOf (object : Expr) :
    Matches n i (i + 1) (memberOf nested b object) (memberOf nested' b' object) := by
  refine matches_identifier.bind fun name => matches_peek fun t => .ite ?_ (matches_pure le_rfl t)
  exact (matches_arguments (h.later (by omega)) t).bind fun _ =>
    matches_lastSpan.bind fun _ => matches_pure (by omega)

private theorem matches_elementOf {k : Nat} (hk : i < k) (object : Expr) :
    Matches n k (k + 1) (elementOf nested object) (elementOf nested' object) :=
  (h.nested k hk).bind fun _ => (matches_symbol _).bind fun _ => matches_pure (by omega)

/-- Each selection takes a round and starts with a sign of its own. -/
theorem matches_selections {rounds rounds' k : Nat} (hk : i ≤ k) (hr : n < rounds + k)
    (hr' : n < rounds' + k) (e : Expr) :
    Matches n k k (selections nested b rounds e) (selections nested' b' rounds' e) := by
  induction rounds generalizing k rounds' e with
  | zero => exact matches_of_lt (by omega)
  | succ rounds ih =>
    cases rounds' with
    | zero => exact matches_of_lt (by omega)
    | succ rounds' =>
      refine matches_acceptSymbol ?_ (matches_acceptSymbol ?_ (matches_pure le_rfl))
      · refine (matches_memberOf (h.later (by omega)) e).bind fun e => ?_
        exact (ih (by omega) (by omega) (by omega) e).mono (by omega)
      · refine (matches_elementOf h (by omega) e).bind fun e => ?_
        exact (ih (by omega) (by omega) (by omega) e).mono (by omega)

private theorem matches_selected :
    Matches n i (i + 1) (selected nested b) (selected nested' b') := by
  have hbound := (h.later (Nat.le_succ i)).bound
  have hbound' := (h.later (Nat.le_succ i)).bound'
  exact (matches_primary h).bind fun e => matches_selections h (Nat.le_succ i) hbound hbound' e

/-- Each sign in front takes a round. -/
theorem matches_signed {rounds rounds' k : Nat} (hk : i ≤ k) (hr : n < rounds + k)
    (hr' : n < rounds' + k) :
    Matches n k (k + 1) (signed nested b rounds) (signed nested' b' rounds') := by
  induction rounds generalizing k rounds' with
  | zero => exact matches_of_lt (by omega)
  | succ rounds ih =>
    cases rounds' with
    | zero => exact matches_of_lt (by omega)
    | succ rounds' =>
      refine matches_peek fun t => ?_
      cases hop : unaryOp? t.kind with
      | none => exact matches_selected (h.later hk) t
      | some op =>
        have ht : t.kind ≠ .eof := by
          intro heof
          rw [heof] at hop
          cases hop
        refine matchesAt_advance ht ((ih (by omega) (by omega) (by omega)).bind fun e => ?_)
        exact matches_pure (by omega)

end

/-- The end of file is no operator. -/
theorem levels_eof : ∀ level ∈ levels, level .eof = none := by
  simp [levels]

section

variable {n i : Nat} {level : Level} (hlevel : level .eof = none) {operand operand' : Parser Expr}
  (h : ∀ k, i ≤ k → Matches n k (k + 1) operand operand')

include hlevel h

/-- Each operation of a level takes a round, an operator and an operand. -/
theorem matches_operations {rounds rounds' k : Nat} (hk : i ≤ k) (hr : n < rounds + k)
    (hr' : n < rounds' + k) (left : Expr) :
    Matches n k k (operations level operand rounds left)
      (operations level operand' rounds' left) := by
  induction rounds generalizing k rounds' left with
  | zero => exact matches_of_lt (by omega)
  | succ rounds ih =>
    cases rounds' with
    | zero => exact matches_of_lt (by omega)
    | succ rounds' =>
      refine matches_peek fun t => ?_
      cases hop : level t.kind with
      | none => exact matches_pure le_rfl t
      | some op =>
        have ht : t.kind ≠ .eof := by
          intro heof
          rw [heof, hlevel] at hop
          cases hop
        refine matchesAt_advance ht ((h (k + 1) (by omega)).bind fun right => ?_)
        exact (ih (by omega) (by omega) (by omega) _).mono (by omega)

private theorem matches_leftGrouped {b b' k : Nat} (hk : i ≤ k) (hb : n < b + k)
    (hb' : n < b' + k) :
    Matches n k (k + 1) (leftGrouped level operand b) (leftGrouped level operand' b') :=
  (h k hk).bind fun left =>
    matches_operations hlevel h (by omega) (by omega) (by omega) left

end

/-- Some of the levels of binary operators above the signed expressions. -/
def grouped (ls : List Level) (nested : Parser Expr) (bound : Nat) : Parser Expr :=
  ls.foldr (fun level operand => leftGrouped level operand bound) (signed nested bound bound)

/-- The levels are put together one by one, as long as none of them takes an end of file for an
operator. -/
theorem matches_grouped {n i b b' : Nat} {nested nested' : Parser Expr}
    (h : Ready n i b b' nested nested') {ls : List Level} (hls : ∀ level ∈ ls, level .eof = none) :
    ∀ k, i ≤ k → Matches n k (k + 1) (grouped ls nested b) (grouped ls nested' b') := by
  induction ls with
  | nil => exact fun k hk => matches_signed h hk (h.later hk).bound (h.later hk).bound'
  | cons level ls ih =>
    rw [List.forall_mem_cons] at hls
    exact fun k hk =>
      matches_leftGrouped hls.1 (ih hls.2) hk (h.later hk).bound (h.later hk).bound'

/-- An expression consumes a token before each nested one, so its bound is not used up before the
tokens are. -/
theorem matches_expression {n i b b' : Nat} (hb : n < b + i) (hb' : n < b' + i) :
    Matches n i (i + 1) (expression b) (expression b') := by
  induction b generalizing i b' with
  | zero => exact matches_of_lt (by omega)
  | succ b ih =>
    cases b' with
    | zero => exact matches_of_lt (by omega)
    | succ b' =>
      have hready : Ready n i (b + 1) (b' + 1) (expression b) (expression b') :=
        ⟨hb, hb', fun k hk => ih (by omega) (by omega)⟩
      exact matches_grouped hready levels_eof i le_rfl

/-! ## Statements -/

/-- Looking ahead for a name ends at an end of file. -/
theorem namesOrRefers_takeWhile (ts : List Token) :
    namesOrRefers (ts.takeWhile (·.kind ≠ .eof)) = namesOrRefers ts := by
  cases ts with
  | nil => rfl
  | cons t ts =>
    obtain ⟨kind, span⟩ := t
    cases kind with
    | symbol sign => cases sign <;> rfl
    | keyword | identifier | integer | float | string | eof => rfl

/-- Nothing behind the end of file is looked at to skip array sizes. -/
theorem afterSizes_takeWhile (ts : List Token) :
    afterSizes (ts.takeWhile (·.kind ≠ .eof)) = (afterSizes ts).takeWhile (·.kind ≠ .eof) := by
  fun_induction afterSizes ts with
  | case1 _ _ _ _ ts ih => exact ih
  | case2 ts h =>
    refine afterSizes.eq_2 _ fun left text size right rest heq => ?_
    obtain ⟨more, hmore⟩ := List.takeWhile_prefix (l := ts) fun t : Token => t.kind ≠ .eof
    rw [heq] at hmore
    exact h left text size right (rest ++ more) hmore.symm

/-- The test whether a declaration starts ends at an end of file. -/
theorem startsDeclaration_takeWhile (ts : List Token) :
    startsDeclaration (ts.takeWhile (·.kind ≠ .eof)) = startsDeclaration ts := by
  cases ts with
  | nil => rfl
  | cons t ts =>
    obtain ⟨kind, span⟩ := t
    cases kind with
    | keyword word => cases word <;> rfl
    | identifier name =>
      change namesOrRefers (afterSizes (ts.takeWhile (·.kind ≠ .eof))) =
        namesOrRefers (afterSizes ts)
      rw [afterSizes_takeWhile, namesOrRefers_takeWhile]
    | symbol | integer | float | string | eof => rfl

private theorem matches_bareWord {n i : Nat} (start : Span) (make : Span → Stmt) :
    Matches n i (i + 1) (bareWord start make) (bareWord start make) :=
  (matches_symbol _).bind fun _ => matches_pure le_rfl

section

variable {n i b b' : Nat} (hb : n < b + i) (hb' : n < b' + i)

include hb hb'

private theorem matches_declarator : Matches n i (i + 1) (declarator b) (declarator b') := by
  refine matches_identifier.bind fun name => matches_acceptSymbol ?_ (matches_pure le_rfl)
  exact (matches_expression (by omega) (by omega)).bind fun init => matches_pure (by omega)

private theorem matches_declarators : Matches n i (i + 1) (declarators b) (declarators b') :=
  matches_separated _ (fun k hk => matches_declarator (by omega) (by omega)) hb hb'

/-- A declaration of local names starts with a type. -/
theorem matches_declaration : Matches n i (i + 1) (declaration b) (declaration b') := by
  have hrest : ∀ {k}, i ≤ k → ∀ (first : Token) (isFinal : Bool), Matches n k (i + 1)
      (writtenType b >>= fun type => declarators b >>= fun names => symbol .semi >>= fun close =>
        pure (Stmt.declare isFinal type names (first.span.merge close)))
      (writtenType b' >>= fun type => declarators b' >>= fun names => symbol .semi >>= fun close =>
        pure (Stmt.declare isFinal type names (first.span.merge close))) :=
    fun hk first isFinal => (matches_writtenType (by omega) (by omega)).bind fun type =>
      (matches_declarators (by omega) (by omega)).bind fun names =>
        (matches_symbol _).bind fun close => matches_pure (by omega)
  exact matches_peek fun first =>
    matches_acceptKeyword (hrest (by omega) first true) (hrest le_rfl first false) first

private theorem matches_returning (start : Span) :
    Matches n i (i + 1) (returning b start) (returning b' start) := by
  refine matches_peek fun t => .ite (matches_bareWord _ _ t) ?_
  exact (matches_expression hb hb' t).bind fun value =>
    (matches_bareWord _ _).mono (by omega)

private theorem matches_assignment (start : Span) (target : Expr) :
    Matches n i (i + 1) (assignment b start target) (assignment b' start target) :=
  .ite ((matches_expression hb hb').bind fun _ => (matches_symbol _).bind fun _ =>
    matches_pure (by omega)) (matches_fail (by simp) _)

/-- Assignments and calls start with an expression. -/
theorem matches_assignmentOrCall :
    Matches n i (i + 1) (assignmentOrCall b) (assignmentOrCall b') := by
  refine matches_peek fun first => (matches_expression hb hb' first).bind fun e =>
    matches_acceptSymbol ?_ ?_
  · exact (matches_assignment (by omega) (by omega) first.span e).mono (by omega)
  · simp only [Bool.false_eq_true, if_false]
    exact .ite ((matches_symbol _).bind fun _ => matches_pure (by omega)) (matches_fail (by simp) _)

end

private theorem matches_direction {n i : Nat} : Matches n i (i + 1) direction direction :=
  matches_acceptKeyword (matches_pure le_rfl)
    (matches_acceptKeyword (matches_pure le_rfl) (matches_failExpected _))

section

variable {n i b b' : Nat} {nested nested' : Parser Stmt} (h : Ready n i b b' nested nested')

include h

/-- The statements of a branch come behind its word. -/
theorem matches_branch {k : Nat} (hk : i < k) (start : Span) :
    Matches n k (k + 1) (branch nested b start) (branch nested' b' start) := by
  have hnested := h.nested
  obtain ⟨hb, hb', -⟩ := h
  refine (matches_expression (by omega) (by omega)).bind fun condition =>
    (matches_keyword _).bind fun _ => (hnested _ (by omega)).bind fun thenBranch =>
      matches_acceptKeyword ?_ ?_
  · exact (hnested _ (by omega)).bind fun elseBranch =>
      matches_lastSpan.bind fun stop => matches_pure (by omega)
  · exact matches_lastSpan.bind fun stop => matches_pure (by omega)

/-- The body of a loop comes behind its head. -/
theorem matches_countedLoop (start : Span) :
    Matches n i (i + 1) (countedLoop nested b start) (countedLoop nested' b' start) := by
  have hnested := h.nested
  obtain ⟨hb, hb', -⟩ := h
  exact matches_identifier.bind fun _ => (matches_symbol _).bind fun _ =>
    (matches_expression (by omega) (by omega)).bind fun _ => matches_direction.bind fun _ =>
      (matches_expression (by omega) (by omega)).bind fun _ => (matches_keyword _).bind fun _ =>
        (hnested _ (by omega)).bind fun _ => matches_pure (by omega)

/-- The statements of a block come behind its brace, and each takes a round. -/
theorem matches_blockOf : Matches n i (i + 1) (blockOf nested b) (blockOf nested' b') := by
  have hnested := h.nested
  obtain ⟨hb, hb', -⟩ := h
  refine (matches_symbol _).bind fun start =>
    (matches_manyUntil _ (fun k hk => hnested k (by omega)) (by omega) (by omega)).bind
      fun stmts => (matches_symbol _).bind fun close => matches_pure (by omega)

/-- A statement consumes a token before it nests another one. -/
theorem matches_statementOf :
    Matches n i (i + 1) (statementOf nested b) (statementOf nested' b') := by
  have hlater := h.later (Nat.le_succ i)
  refine matches_peek fun ⟨kind, span⟩ => ?_
  dsimp only
  split
  · exact (matches_blockOf h _).bind fun block => matches_pure le_rfl
  · exact matchesAt_advance (by simp) ((matches_branch h (by omega) span).mono (by omega))
  · exact matchesAt_advance (by simp) ((matches_countedLoop hlater span).mono (by omega))
  · exact matchesAt_advance (by simp) ((matches_bareWord span _).mono (by omega))
  · exact matchesAt_advance (by simp) ((matches_bareWord span _).mono (by omega))
  · exact matchesAt_advance (by simp)
      ((matches_returning hlater.bound hlater.bound' span).mono (by omega))
  · refine matches_peekAll fun ts => ?_
    rw [startsDeclaration_takeWhile]
    exact .ite (matches_declaration h.bound h.bound' _)
      (matches_assignmentOrCall h.bound h.bound' _)

end

/-- So the bound of statements is not used up before the tokens are. -/
theorem matches_statement {n i b b' : Nat} (hb : n < b + i) (hb' : n < b' + i) :
    Matches n i (i + 1) (statement b) (statement b') := by
  induction b generalizing i b' with
  | zero => exact matches_of_lt (by omega)
  | succ b ih =>
    cases b' with
    | zero => exact matches_of_lt (by omega)
    | succ b' => exact matches_statementOf ⟨hb, hb', fun k hk => ih (by omega) (by omega)⟩

private theorem matches_block {n i b b' : Nat} (hb : n < b + i) (hb' : n < b' + i) :
    Matches n i (i + 1) (block b) (block b') :=
  matches_blockOf ⟨hb, hb', fun k hk => matches_statement (by omega) (by omega)⟩

/-! ## Members, classes and programs -/

/-- The test whether a constructor starts ends at an end of file. -/
theorem startsNamedParens_takeWhile (ts : List Token) :
    startsNamedParens (ts.takeWhile (·.kind ≠ .eof)) = startsNamedParens ts := by
  cases ts with
  | nil => rfl
  | cons t ts =>
    obtain ⟨kind, span⟩ := t
    cases kind with
    | keyword | symbol | integer | float | string | eof => rfl
    | identifier name =>
      cases ts with
      | nil => rfl
      | cons t ts =>
        obtain ⟨kind, span⟩ := t
        cases kind with
        | symbol sign => cases sign <;> rfl
        | keyword | identifier | integer | float | string | eof => rfl

/-- Each modifier takes a round. -/
theorem matches_modifiers {n i rounds rounds' : Nat} (hr : n < rounds + i) (hr' : n < rounds' + i)
    (m : Modifiers) : Matches n i i (modifiers rounds m) (modifiers rounds' m) := by
  induction rounds generalizing i rounds' m with
  | zero => exact matches_of_lt (by omega)
  | succ rounds ih =>
    cases rounds' with
    | zero => exact matches_of_lt (by omega)
    | succ rounds' =>
      refine matches_acceptKeyword ?_ (matches_acceptKeyword ?_ (matches_pure le_rfl))
      · exact (ih (by omega) (by omega) _).mono (by omega)
      · exact (ih (by omega) (by omega) _).mono (by omega)

private theorem matches_parentClass {n i : Nat} : Matches n i i parentClass parentClass :=
  matches_acceptKeyword (matches_identifier.bind fun _ => matches_pure (by omega))
    (matches_pure le_rfl)

section

variable {n i b b' : Nat} (hb : n < b + i) (hb' : n < b' + i)

include hb hb'

private theorem matches_paramGroup : Matches n i (i + 1) (paramGroup b) (paramGroup b') :=
  (matches_writtenType hb hb').bind fun _ =>
    (matches_separated _ (fun _ _ => matches_identifier) (by omega) (by omega)).bind fun _ =>
      matches_pure (by omega)

/-- Parameters stand in parentheses, and each group of them takes a round. -/
theorem matches_params : Matches n i (i + 1) (params b) (params b') := by
  have hclose : ∀ {k}, i + 1 ≤ k → ∀ groups : List (List Param),
      Matches n k (i + 1) (symbol .rparen >>= fun _ => pure groups.flatten)
        (symbol .rparen >>= fun _ => pure groups.flatten) :=
    fun hk groups => (matches_symbol _).bind fun _ => matches_pure (by omega)
  refine (matches_symbol _).bind fun _ => matches_peek fun t => .ite ?_ ?_
  · exact (matches_pure le_rfl t).bind (hclose le_rfl)
  · have hgroups : Matches n (i + 1) (i + 1 + 1) (separated .semi (paramGroup b) b)
        (separated .semi (paramGroup b') b') :=
      matches_separated _ (fun k hk => matches_paramGroup (by omega) (by omega)) (by omega)
        (by omega)
    exact (hgroups t).bind (hclose (by omega))

private theorem matches_destructor (start : Span) :
    Matches n i (i + 1) (destructor b start) (destructor b' start) :=
  matches_identifier.bind fun _ => (matches_symbol _).bind fun _ => (matches_symbol _).bind fun _ =>
    (matches_block (by omega) (by omega)).bind fun _ => matches_pure (by omega)

private theorem matches_constructorDecl (start : Span) :
    Matches n i (i + 1) (constructorDecl b start) (constructorDecl b' start) :=
  matches_identifier.bind fun _ => (matches_params (by omega) (by omega)).bind fun _ =>
    (matches_block (by omega) (by omega)).bind fun _ => matches_pure (by omega)

private theorem matches_methodDecl (start : Span) (isStatic : Bool) (result : Option WrittenType) :
    Matches n i (i + 1) (methodDecl b start isStatic result)
      (methodDecl b' start isStatic result) :=
  matches_identifier.bind fun _ => (matches_params (by omega) (by omega)).bind fun _ =>
    (matches_block (by omega) (by omega)).bind fun _ => matches_pure (by omega)

private theorem matches_attributeDecl (start : Span) (m : Modifiers) (type : WrittenType) :
    Matches n i (i + 1) (attributeDecl b start m type) (attributeDecl b' start m type) :=
  (matches_declarators hb hb').bind fun _ => (matches_symbol _).bind fun _ =>
    matches_pure (by omega)

private theorem matches_resultType : Matches n i (i + 1) (resultType b) (resultType b') :=
  matches_acceptKeyword (matches_pure le_rfl)
    ((matches_writtenType hb hb').bind fun _ => matches_pure le_rfl)

private theorem matches_typedMember (start : Span) :
    Matches n i (i + 1) (typedMember b start) (typedMember b' start) := by
  refine (matches_modifiers hb hb' _).bind fun m => (matches_resultType hb hb').bind
    fun result t => matches_peekAll fun ts => ?_
  rw [startsNamedParens_takeWhile]
  refine .ite (.ite (matches_fail (by simp) _ t) ?_) ?_
  · exact (matches_methodDecl (by omega) (by omega) _ _ _).mono (by omega) t
  · cases result with
    | none => exact matches_fail (by simp) _ t
    | some type => exact (matches_attributeDecl (by omega) (by omega) _ _ _).mono (by omega) t

/-- A member of any sort consumes a token. -/
theorem matches_member : Matches n i (i + 1) (member b) (member b') := by
  refine matches_peek fun t => matches_peekAll fun ts =>
    .ite (matches_acceptSymbol ?_ ?_ t) (matches_failExpected _ t)
  · exact (matches_destructor (by omega) (by omega) _).mono (by omega)
  · simp only [Bool.false_eq_true, if_false]
    rw [startsNamedParens_takeWhile]
    exact .ite (matches_constructorDecl hb hb' _) (matches_typedMember hb hb' _)

/-- A class consumes its name before its members, which take a round each. -/
theorem matches_classDecl : Matches n i (i + 1) (classDecl b) (classDecl b') :=
  (matches_keyword _).bind fun _ => matches_identifier.bind fun _ =>
    matches_parentClass.bind fun _ => (matches_symbol _).bind fun _ =>
      (matches_manyUntil _ (fun k hk => matches_member (by omega) (by omega)) (by omega)
        (by omega)).bind fun _ => (matches_symbol _).bind fun _ => matches_pure (by omega)

/-- Classes are read up to the end of file, with a round for each. -/
theorem matches_program : Matches n i i (program b) (program b') :=
  matches_peek fun first =>
    (matches_manyUntil _ (fun k hk => matches_classDecl (by omega) (by omega)) hb hb' first).bind
      fun _ => matches_peek fun stop => matches_pure le_rfl stop

end

/-! ## Runs over all tokens -/

/-- With fewer tokens before the first end of file than the limit, the parser does not see what
stands behind it and moves over no end of file, and its run ends: where it succeeds, it has moved
forward, and where it fails, it is not for a bound that is used up. -/
structure StopsAtEof {α : Type} (limit : Nat) (p : Parser α) : Prop where
  /-- It answers as on the tokens cut off at the end of file. -/
  blind : ∀ c, c.ahead.length < limit → p c.cut = cutRest (p c)
  /-- Where it succeeds, it has moved over at least one token, and over no end of file. -/
  forward : ∀ c a c', c.ahead.length < limit → p c = .ok (a, c') → ∃ us, us ≠ [] ∧ c.Reaches us c'
  /-- Where it fails, it is for an error in the tokens, and it has moved over no end of file. -/
  fails : ∀ c r, c.ahead.length < limit → p c = .error r →
    r.error.fault ≠ .exhausted ∧ ∃ us, c.Reaches us r.cursor

/-- A parser that matches itself on all short enough token lists stops at the first end of file. -/
theorem stopsAtEof_of_matches {α : Type} {limit : Nat} {p : Parser α}
    (h : ∀ n, n < limit → Matches n 0 1 p p) : p.StopsAtEof limit := by
  have hends : ∀ c : Cursor, c.ahead.length < limit → Ends c 1 (p c) :=
    fun c hc => (h _ hc c.current c rfl le_rfl).2
  refine ⟨fun c hc => (h _ hc c.current c rfl le_rfl).1, fun c a c' hc ha => ?_, fun c r hc hr => ?_⟩
  · obtain ⟨us, hus, hlength⟩ : Ends c 1 (.ok (a, c')) := ha ▸ hends c hc
    exact ⟨us, List.ne_nil_of_length_pos hlength, hus⟩
  · have hfails : Ends c 1 (.error r : Except Rejection (α × Cursor)) := hr ▸ hends c hc
    exact hfails

/-- Expressions are ready to be nested where their bound is greater than the number of tokens. -/
theorem ready_expression {n bound : Nat} (hn : n < bound + 1) :
    Ready n 0 (bound + 1) (bound + 1) (expression bound) (expression bound) :=
  ⟨hn, hn, fun k hk => matches_expression (by omega) (by omega)⟩

/-- Parsers that match give the same value or syntax error. -/
theorem run_eq_of_matches {α : Type} {p q : Parser α} {c : Cursor}
    (h : Matches c.ahead.length 0 0 p q) : p.run c.cut = q.run c := by
  rw [run, run, (h c.current c rfl le_rfl).1]
  cases q c <;> rfl

end Parser

/-- What stands behind the first end of file makes no difference after the cut. -/
theorem Cursor.cut_ofTokens_append {us rest : List Token} {t : Token}
    (hus : ∀ u ∈ us, u.kind ≠ .eof) (ht : t.kind = .eof) :
    (ofTokens (us ++ t :: rest)).cut = ⟨us, t.span, (us.head?.map Token.span).getD t.span⟩ := by
  obtain ⟨hahead, hstop⟩ := ahead_stop_of_append hus ht rest
  have hlast : (ofTokens (us ++ t :: rest)).last = (us.head?.map Token.span).getD t.span := by
    cases us <;> rfl
  rw [cut, hahead, hstop, hlast]

/-- As many tokens are ahead as kinds come before the first end of file. -/
theorem Cursor.length_ahead_ofTokens (ts : List Token) :
    (ofTokens ts).ahead.length = (Token.kindsBeforeEof ts).length := by
  rw [← kinds_ofTokens, kinds, List.length_map]

namespace Program

/-- The answer does not depend on the bound, nor on whether the tokens are cut off. -/
theorem run_cut_eq_ofTokens {ts : List Token} {bound : Nat}
    (hbound : (Token.kindsBeforeEof ts).length < bound) :
    (Parser.program bound).run (Cursor.ofTokens ts).cut = ofTokens ts := by
  have hle := Token.length_kindsBeforeEof_le ts
  have hlength := Cursor.length_ahead_ofTokens ts
  exact Parser.run_eq_of_matches (Parser.matches_program (by omega) (by omega))

/-- The run over all of the tokens ends at the first end of file, or before it with an error. -/
theorem ends_program {ts : List Token} {bound : Nat}
    (hbound : (Token.kindsBeforeEof ts).length < bound) :
    Parser.Ends (.ofTokens ts) 0 (Parser.program bound (.ofTokens ts)) := by
  have hlength := Cursor.length_ahead_ofTokens ts
  have hmatches := @Parser.matches_program (Cursor.ofTokens ts).ahead.length 0 bound bound
    (by omega) (by omega)
  exact (hmatches _ _ rfl le_rfl).2

/-- Parsing ends with every bound that is greater than the number of tokens before the first end of
file: it yields a program, in front of that end of file, or a syntax error, and never for a bound
that is used up, and the answer does not depend on the bound. Either way the cursor has moved over
no end of file, and what stands behind the first one makes no difference, so that the tokens could
as well be cut off there. A parser of types, expressions, statements, members or classes does not
see behind an end of file either and never uses up its bound, and where it succeeds it has moved
forward by at least one token. -/
theorem parsing_stops_at_eof (ts : List Token) :
    (∀ bound, (Token.kindsBeforeEof ts).length < bound →
      (∃ p c us, Parser.program bound (.ofTokens ts) = .ok (p, c) ∧ ofTokens ts = .ok p ∧
        (Cursor.ofTokens ts).Reaches us c ∧ c.current.kind = .eof) ∨
      ∃ r us, Parser.program bound (.ofTokens ts) = .error r ∧ ofTokens ts = .error r.error ∧
        r.error.fault ≠ .exhausted ∧ (Cursor.ofTokens ts).Reaches us r.cursor) ∧
    (∀ us t rest, (∀ u ∈ us, u.kind ≠ .eof) → t.kind = .eof → ts = us ++ t :: rest →
      ofTokens ts = ofTokens (us ++ [t])) ∧
    ∀ bound,
      (Parser.writtenType bound).StopsAtEof bound ∧
      (Parser.expression bound).StopsAtEof bound ∧
      (Parser.primary (Parser.expression bound) (bound + 1)).StopsAtEof (bound + 1) ∧
      (Parser.selected (Parser.expression bound) (bound + 1)).StopsAtEof (bound + 1) ∧
      (∀ ls, ls <:+ Parser.levels →
        (Parser.grouped ls (Parser.expression bound) (bound + 1)).StopsAtEof (bound + 1)) ∧
      (Parser.statement bound).StopsAtEof bound ∧
      (Parser.member bound).StopsAtEof bound ∧
      (Parser.classDecl bound).StopsAtEof bound := by
  refine ⟨fun bound hbound => ?_, ?_, fun bound => ⟨?_, ?_, ?_, ?_, ?_, ?_, ?_, ?_⟩⟩
  · have hends := ends_program hbound
    have hanswer : (Parser.program bound).run (.ofTokens ts) = ofTokens ts := by
      have hlength := Cursor.length_ahead_ofTokens ts
      rw [← run_cut_eq_ofTokens hbound]
      exact (Parser.run_eq_of_matches (Parser.matches_program (by omega) (by omega))).symm
    rw [Parser.run] at hanswer
    cases hrun : Parser.program bound (.ofTokens ts) with
    | error r =>
      rw [hrun] at hends hanswer
      obtain ⟨hfault, us, hus⟩ := hends
      exact .inr ⟨r, us, rfl, hanswer.symm, hfault, hus⟩
    | ok answer =>
      obtain ⟨p, c⟩ := answer
      rw [hrun] at hends hanswer
      obtain ⟨us, hus, -⟩ := hends
      obtain ⟨_, -, -, hend⟩ := Parser.reads_program _ _ _ _ hrun
      exact .inl ⟨p, c, us, rfl, hanswer.symm, hus, c.kinds_head? ▸ hend⟩
  · rintro us t rest hus ht rfl
    have hcut : (Cursor.ofTokens (us ++ t :: rest)).cut = (Cursor.ofTokens (us ++ [t])).cut := by
      rw [Cursor.cut_ofTokens_append hus ht, Cursor.cut_ofTokens_append hus ht]
    have hle := Token.length_kindsBeforeEof_le (us ++ t :: rest)
    have hle' := Token.length_kindsBeforeEof_le (us ++ [t])
    let bound := (us ++ t :: rest).length + (us ++ [t]).length + 1
    rw [← run_cut_eq_ofTokens (by omega : _ < bound), hcut,
      run_cut_eq_ofTokens (by omega : _ < bound)]
  · exact Parser.stopsAtEof_of_matches fun n hn => Parser.matches_writtenType hn hn
  · exact Parser.stopsAtEof_of_matches fun n hn => Parser.matches_expression hn hn
  · exact Parser.stopsAtEof_of_matches fun n hn =>
      Parser.matches_primary (Parser.ready_expression hn)
  · exact Parser.stopsAtEof_of_matches fun n hn =>
      Parser.matches_selected (Parser.ready_expression hn)
  · refine fun ls hls => Parser.stopsAtEof_of_matches fun n hn => ?_
    exact Parser.matches_grouped (Parser.ready_expression hn)
      (fun level hlevel => Parser.levels_eof level (hls.subset hlevel)) 0 le_rfl
  · exact Parser.stopsAtEof_of_matches fun n hn => Parser.matches_statement hn hn
  · exact Parser.stopsAtEof_of_matches fun n hn => Parser.matches_member hn hn
  · exact Parser.stopsAtEof_of_matches fun n hn => Parser.matches_classDecl hn hn

end Program

end ClassCheck
