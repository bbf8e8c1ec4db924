import ClassCheck.Proofs.DecimalTexts

/-!
# Rendered expressions and their tokens

The source form of an expression is scanned to tokens that spell it. Words and numbers are kept
apart from what stands behind them by a blank or a sign; only the digits of an integer would run
on over a point. The tokens are not those that the expression was parsed from, since literals are
written from their values.
-/

namespace ClassCheck

open Lexeme

/-! ## Tokens of a text with another behind it -/

namespace Scanner

/-- A text is scanned to these tokens if the other text stands behind it. -/
def Emits (cs : List Char) (ks : List TokenKind) (rest : List Char) : Prop :=
  ∀ offset, ∃ offset', (Scanner.mk offset (cs ++ rest)).kinds =
    (Scanner.mk offset' rest).kinds.map (ks ++ ·)

section

variable {cs ds rest : List Char} {ks ls : List TokenKind}

/-- Texts are scanned one after the other. -/
theorem Emits.append (hcs : Emits cs ks (ds ++ rest)) (hds : Emits ds ls rest) :
    Emits (cs ++ ds) (ks ++ ls) rest := by
  intro offset
  obtain ⟨middle, hmiddle⟩ := hcs offset
  obtain ⟨stop, hstop⟩ := hds middle
  refine ⟨stop, ?_⟩
  rw [List.append_assoc, hmiddle, hstop]
  cases (Scanner.mk stop rest).kinds with
  | error e => rfl
  | ok ms => exact congrArg Except.ok (List.append_assoc ks ls ms).symm

/-- A lexeme is scanned to the token that it is classified as. -/
theorem emits_lexeme {shape : Shape} {c : Char} {more : List Char} {k : TokenKind}
    (h : Heads shape c more rest) (hk : classify shape (String.ofList (c :: more)) = .ok k) :
    Emits (c :: more) [k] rest := by
  intro offset
  refine ⟨offset + Text.byteLength (c :: more), ?_⟩
  rw [List.cons_append, kinds_lexeme h, hk]
  rfl

/-- Blanks and comments in front add no token. -/
theorem Emits.trivia {w : List Char} (hw : Trivia w) (h : Emits cs ks rest) :
    Emits (w ++ cs) ks rest := by
  intro offset
  have hskip := tokens_trivia hw offset (cs ++ rest)
  obtain ⟨stop, hstop⟩ := h (offset + Text.byteLength w)
  refine ⟨stop, ?_⟩
  rw [← hstop, kinds, kinds, ← hskip, List.append_assoc]

/-- Nor does a blank. -/
theorem Emits.blank (h : Emits cs ks rest) : Emits (' ' :: cs) ks rest :=
  h.trivia (.blank rfl .nil : Trivia [' '])

/-- A sign of one character in front adds its token. -/
theorem Emits.sign {c : Char} {sign : Symbol} (hc : (c, sign) ∈ punctuation)
    (h : Emits cs ks rest) : Emits (c :: cs) (.symbol sign :: ks) rest :=
  (emits_lexeme (heads_punctuation hc _) rfl).append h

/-- No text is scanned to no tokens. -/
theorem emits_nil : Emits [] [] rest := by
  intro offset
  refine ⟨offset, ?_⟩
  rw [List.nil_append]
  cases (Scanner.mk offset rest).kinds <;> rfl

/-- What is emitted with nothing behind is the whole list of tokens. -/
theorem Emits.tokens (h : Emits cs ks []) (offset : Nat) :
    ∃ ts, (Scanner.mk offset cs).tokens = .ok ts ∧ ts.map Token.kind = ks ++ [.eof] := by
  obtain ⟨stop, hstop⟩ := h offset
  rw [List.append_nil, kinds, kinds, tokens_nil] at hstop
  cases htokens : (Scanner.mk offset cs).tokens with
  | error e =>
    rw [htokens] at hstop
    cases hstop
  | ok ts =>
    rw [htokens] at hstop
    exact ⟨ts, rfl, Except.ok.inj hstop⟩

end

end Scanner

/-! ## Tokens of words and literals -/

/-- A name as it is scanned: a word that is not reserved. -/
def IsName (name : String) : Prop := IsWord name ∧ Keyword.ofSpelling? name = none

/-- What is known of the text of a scanned token before the end of file. -/
def TokenKind.Lexical : TokenKind → Prop
  | .identifier name => IsName name
  | .integer text => ∀ c ∈ text.toList, c.isDigit = true
  | .float text => ∃ c cs, text = String.ofList (c :: cs) ∧ c.isDigit = true
  | .eof => False
  | .keyword _ | .symbol _ | .string _ => True

namespace Scanner

variable {rest : List Char}

private theorem emits_word {text : String} {k : TokenKind} (h : IsWord text)
    (hk : classify .word text = .ok k) (hrest : EndsWord rest) : Emits text.toList [k] rest := by
  obtain ⟨c, more, htext, hc, hmore⟩ := h
  have hback : String.ofList (c :: more) = text := by rw [← htext, String.ofList_toList]
  rw [htext]
  refine emits_lexeme (heads_word hc hmore hrest) ?_
  rw [hback, hk]

/-- A name is scanned to its token where the word ends. -/
theorem emits_name {name : String} (h : IsName name) (hrest : EndsWord rest) :
    Emits name.toList [.identifier name] rest := by
  refine emits_word h.1 ?_ hrest
  rw [classify, h.2]

/-- So is a reserved word. -/
theorem emits_keyword (word : Keyword) (hrest : EndsWord rest) :
    Emits word.spelling.toList [.keyword word] rest := by
  refine emits_word word.isWord_spelling ?_ hrest
  rw [classify, word.ofSpelling?_spelling]

/-- Digits are scanned to an integer where the word ends and no point follows. -/
theorem emits_integer {text : String} (hne : text.toList ≠ [])
    (h : ∀ c ∈ text.toList, c.isDigit = true) (hrest : EndsWord rest)
    (hdot : rest.head? ≠ some '.') : Emits text.toList [.integer text] rest := by
  obtain ⟨c, more, htext⟩ := List.exists_cons_of_ne_nil hne
  have hback : String.ofList (c :: more) = text := by rw [← htext, String.ofList_toList]
  rw [htext, List.forall_mem_cons] at h
  rw [htext]
  refine emits_lexeme (heads_integer h.1 h.2 hrest hdot) ?_
  rw [hback, classify]

/-- A number with a fraction is scanned to its token. -/
theorem emits_float {text : String} (h : Number.FloatText text.toList) (hrest : EndsWord rest) :
    Emits text.toList [.float text] rest := by
  obtain ⟨c, more, htext, -, hheads⟩ := h
  have hback : String.ofList (c :: more) = text := by rw [← htext, String.ofList_toList]
  rw [htext]
  refine emits_lexeme (hheads rest hrest) ?_
  rw [hback, classify]

/-- A quoted text is scanned to a string if all of its escapes are short. -/
theorem emits_quoted {value : String} (h : ∀ c ∈ value.toList, Text.QuotedShort c) :
    Emits (Text.quoted value).toList [.string (Text.quoted value)] rest := by
  have htext : (Text.quoted value).toList =
      '"' :: (Text.quotedBody value.toList ++ ['"']) := by
    rw [Text.quoted, String.toList_ofList]
    rfl
  have hback : String.ofList ('"' :: (Text.quotedBody value.toList ++ ['"'])) =
      Text.quoted value := by rw [← htext, String.ofList_toList]
  rw [htext]
  refine emits_lexeme (heads_quoted h rest) ?_
  rw [hback, classify]

/-- An operator is scanned to its token in front of a blank. -/
theorem emits_binary (op : BinaryOp) :
    Emits op.sign.toList [.symbol op.symbol] (' ' :: rest) := by
  obtain ⟨c, more, htext, hheads⟩ := heads_binary op
  rw [htext]
  exact emits_lexeme (hheads rest) rfl

/-- An operator in front is scanned to its token unless an equals sign follows. -/
theorem emits_unary (op : UnaryOp) (hrest : rest.head? ≠ some '=') :
    Emits op.sign.toList [.symbol op.symbol] rest := by
  obtain ⟨c, htext, hheads⟩ := heads_unary op
  rw [htext]
  exact emits_lexeme (hheads rest hrest) rfl

end Scanner

/-! ## Parts of an expression -/

/-- Whether the value is a number. -/
def Number.Binary64.isFinite : Number.Binary64 → Bool
  | .finite .. => true
  | .nan | .infinite _ => false

namespace Expr

/-- Whether the expression is an integer literal. -/
def isInteger : Expr → Bool
  | .int .. => true
  | _ => false

mutual

/-- The expression and everything inside it. -/
def parts : Expr → List Expr
  | .binary op left right span => .binary op left right span :: (left.parts ++ right.parts)
  | .unary op operand span => .unary op operand span :: operand.parts
  | .field object name span => .field object name span :: object.parts
  | .call receiver method args span =>
    .call receiver method args span :: (receiver.parts ++ partsAll args)
  | .index object position span => .index object position span :: (object.parts ++ position.parts)
  | .create className args span => .create className args span :: partsAll args
  | .array elements span => .array elements span :: partsAll elements
  | .paren inner span => .paren inner span :: inner.parts
  | e => [e]

/-- The expressions and everything inside them. -/
def partsAll : List Expr → List Expr
  | [] => []
  | e :: es => e.parts ++ partsAll es

end

/-- The expressions right inside the expression. -/
def children : Expr → List Expr
  | .binary _ left right _ => [left, right]
  | .unary _ operand _ => [operand]
  | .field object _ _ => [object]
  | .call receiver _ args _ => receiver :: args
  | .index object position _ => [object, position]
  | .create _ args _ => args
  | .array elements _ => elements
  | .paren inner _ => [inner]
  | _ => []

private theorem partsAll_eq_flatMap (es : List Expr) : partsAll es = es.flatMap parts := by
  induction es with
  | nil => rfl
  | cons e es ih => rw [partsAll, ih, List.flatMap_cons]

/-- The parts of an expression are itself and the parts of its children. -/
theorem parts_eq (e : Expr) : e.parts = e :: e.children.flatMap parts := by
  cases e <;> simp [parts, children, partsAll_eq_flatMap]

/-- An expression is a part of itself. -/
theorem self_mem_parts (e : Expr) : e ∈ e.parts := by
  rw [parts_eq]
  exact List.mem_cons_self

private theorem parts_subset_of_mem_children {e c : Expr} (h : c ∈ e.children) :
    c.parts ⊆ e.parts := by
  intro s hs
  rw [e.parts_eq]
  exact List.mem_cons_of_mem e (List.mem_flatMap.mpr ⟨c, h, hs⟩)

/-- A child is smaller. -/
theorem sizeOf_lt_of_mem_children {e c : Expr} (h : c ∈ e.children) : sizeOf c < sizeOf e := by
  have hlist : ∀ es : List Expr, c ∈ es → sizeOf c < sizeOf es := fun es => List.sizeOf_lt_of_mem
  cases e with
  | int | float | bool | string | nil | self | ident => cases h
  | binary | index =>
    simp only [children, List.mem_cons, List.not_mem_nil, or_false] at h
    obtain rfl | rfl := h <;> simp only [binary.sizeOf_spec, index.sizeOf_spec] <;> omega
  | unary | field | paren =>
    obtain rfl := List.mem_singleton.mp h
    simp only [unary.sizeOf_spec, field.sizeOf_spec, paren.sizeOf_spec]
    omega
  | create _ args _ =>
    have := hlist args h
    simp only [create.sizeOf_spec]
    omega
  | array elements _ =>
    have := hlist elements h
    simp only [array.sizeOf_spec]
    omega
  | call receiver _ args _ =>
    simp only [call.sizeOf_spec]
    rcases List.mem_cons.mp h with rfl | hin
    · omega
    · have := hlist args hin
      omega

/-- What is right inside a spelled expression is spelled by some of its tokens. -/
theorem Spelled.exists_of_mem_children {e c : Expr} {us : List TokenKind} (h : e.Spelled us)
    (hc : c ∈ e.children) : ∃ vs, c.Spelled vs ∧ vs ⊆ us := by
  cases h with
  | int | float | string | true | false | nil | self | ident => cases hc
  | create hargs =>
    obtain ⟨vs, hvs, hsub⟩ := hargs.exists_of_mem hc
    exact ⟨vs, hvs, fun k hk => by simp [hsub hk]⟩
  | array helements =>
    obtain ⟨vs, hvs, hsub⟩ := helements.exists_of_mem hc
    exact ⟨vs, hvs, fun k hk => by simp [hsub hk]⟩
  | paren hinner =>
    obtain rfl := List.mem_singleton.mp hc
    exact ⟨_, hinner, fun k hk => by simp [hk]⟩
  | field _ hobject =>
    obtain rfl := List.mem_singleton.mp hc
    exact ⟨_, hobject, fun k hk => by simp [hk]⟩
  | unary _ hoperand =>
    obtain rfl := List.mem_singleton.mp hc
    exact ⟨_, hoperand, fun k hk => by simp [hk]⟩
  | call _ hreceiver hargs =>
    rcases List.mem_cons.mp hc with rfl | hin
    · exact ⟨_, hreceiver, fun k hk => by simp [hk]⟩
    · obtain ⟨vs, hvs, hsub⟩ := hargs.exists_of_mem hin
      exact ⟨vs, hvs, fun k hk => by simp [hsub hk]⟩
  | index _ hobject hposition =>
    rcases List.mem_pair.mp hc with rfl | rfl
    · exact ⟨_, hobject, fun k hk => by simp [hk]⟩
    · exact ⟨_, hposition, fun k hk => by simp [hk]⟩
  | binary _ hleft _ hright =>
    rcases List.mem_pair.mp hc with rfl | rfl
    · exact ⟨_, hleft, fun k hk => by simp [hk]⟩
    · exact ⟨_, hright, fun k hk => by simp [hk]⟩

/-- Whether the expression itself is not lost when it is written: a string has short escapes
only, a floating-point value is a number, and no integer stands before the point of a selection. -/
def isRereadable : Expr → Bool
  | .string value _ => value.toList.all fun c => decide (Text.QuotedShort c)
  | .float value _ => value.isFinite
  | .field object _ _ => !object.isInteger
  | .call receiver _ _ _ => !receiver.isInteger
  | _ => true

/-- Nothing in the expression is lost when it is written. -/
def Rereads (e : Expr) : Prop := ∀ s ∈ e.parts, s.isRereadable = true

instance (e : Expr) : Decidable e.Rereads :=
  inferInstanceAs (Decidable (∀ s ∈ e.parts, s.isRereadable = true))

/-- What is inside of an expression that can be read again can be read again. -/
theorem Rereads.child {e c : Expr} (h : e.Rereads) (hc : c ∈ e.children) : c.Rereads :=
  fun s hs => h s (parts_subset_of_mem_children hc hs)

end Expr

/-! ## Tokens of an expression -/

/-- A text that ends every expression in front of it. -/
structure EndsExpr (rest : List Char) : Prop where
  word : EndsWord rest
  point : rest.head? ≠ some '.'

/-- An expression ends in front of a character that is neither of a word nor a point. -/
theorem endsExpr_cons {c : Char} (hword : isWordChar c = false) (hpoint : c ≠ '.')
    (rest : List Char) : EndsExpr (c :: rest) := by
  refine ⟨?_, ?_⟩
  · rintro d ⟨⟩
    exact hword
  · rintro ⟨⟩
    exact hpoint rfl

/-- What is written between two signs is kept apart by them. -/
theorem Scanner.emits_between {c c' : Char} {sign sign' : Symbol} {cs rest : List Char}
    {ks : List TokenKind} (hc : (c, sign) ∈ punctuation) (hc' : (c', sign') ∈ punctuation)
    (hpoint : c' ≠ '.') (h : ∀ rest, EndsExpr rest → Emits cs ks rest) :
    Emits (c :: (cs ++ [c'])) (.symbol sign :: (ks ++ [.symbol sign'])) rest := by
  have hword : isWordChar c' = false := by
    simp only [punctuation, List.mem_cons, Prod.mk.injEq, List.not_mem_nil, or_false] at hc'
    obtain ⟨rfl, -⟩ | ⟨rfl, -⟩ | ⟨rfl, -⟩ | ⟨rfl, -⟩ | ⟨rfl, -⟩ | ⟨rfl, -⟩ | ⟨rfl, -⟩ | ⟨rfl, -⟩ |
      ⟨rfl, -⟩ := hc' <;> rfl
  exact ((h _ (endsExpr_cons hword hpoint rest)).append (emits_nil.sign hc')).sign hc

/-- A text that can stand behind the expression. A point behind it selects from the whole of it
and does not go on with the digits of an integer. -/
structure Expr.Leaves (e : Expr) (rest : List Char) : Prop where
  word : EndsWord rest
  point : rest.head? = some '.' → 8 ≤ e.level ∧ e.isInteger = false

/-- A text that ends every expression may stand behind each one. -/
theorem EndsExpr.leaves {rest : List Char} (h : EndsExpr rest) (e : Expr) : e.Leaves rest :=
  ⟨h.word, fun hpoint => absurd hpoint h.point⟩

namespace Expr

open Scanner

/-- Behind one that is neither a selection nor primary only such a text may stand. -/
theorem Leaves.endsExpr {e : Expr} {rest : List Char} (h : e.Leaves rest) (hlevel : e.level < 8) :
    EndsExpr rest := by
  refine ⟨h.word, fun hpoint => ?_⟩
  have := (h.point hpoint).1
  omega

/-- The source form of the expression is scanned to tokens that spell it, and does not start like
the second half of a comparison. -/
structure RendersSpelling (e : Expr) : Prop where
  tokens : ∃ us, e.Spelled us ∧ ∀ rest, e.Leaves rest → Emits e.render.toList us rest
  head : ∃ c cs, e.render.toList = c :: cs ∧ c ≠ '='

private theorem exists_head_append {s : String} (h : ∃ c cs, s.toList = c :: cs ∧ c ≠ '=')
    (t : String) : ∃ c cs, (s ++ t).toList = c :: cs ∧ c ≠ '=' := by
  obtain ⟨c, cs, hs, hc⟩ := h
  exact ⟨c, cs ++ t.toList, by rw [String.toList_append, hs, List.cons_append], hc⟩

/-- An integer that was read from digits is scanned to a token that spells it. -/
theorem rendersSpelling_int {text : String} {value : Int} {span : Span}
    (h : Parser.integerValue text = .ok value) (htext : ∀ c ∈ text.toList, c.isDigit = true) :
    (int value span).RendersSpelling := by
  have hread : Number.readInteger? text = some value := by
    unfold Parser.integerValue at h
    split at h
    · rename_i hsome
      rw [hsome, Except.ok.inj h]
    · cases h
  obtain ⟨hdigits, hne, hback⟩ := Number.readInteger?_toString htext hread
  refine ⟨⟨[.integer (toString value)], .int ?_, fun rest hrest => ?_⟩, ?_⟩
  · rw [Parser.integerValue, hback]
  · have hpoint : rest.head? ≠ some '.' := fun hdot => nomatch (hrest.point hdot).2
    exact emits_integer hne hdigits hrest.word hpoint
  · obtain ⟨c, cs, hcs⟩ := List.exists_cons_of_ne_nil hne
    refine ⟨c, cs, hcs, ?_⟩
    rintro rfl
    exact absurd (hdigits '=' (hcs ▸ List.mem_cons_self)) (by decide)

/-- So is a floating-point value that is a number. -/
theorem rendersSpelling_float {text : String} {value : Number.Binary64} {span : Span}
    (h : Parser.floatValue text = .ok value)
    (htext : ∃ c cs, text = String.ofList (c :: cs) ∧ c.isDigit = true)
    (hfinite : value.isFinite = true) : (float value span).RendersSpelling := by
  obtain ⟨c, cs, rfl, hc⟩ := htext
  have hread : Number.Binary64.read? (String.ofList (c :: cs)) = some value := by
    unfold Parser.floatValue at h
    split at h
    · rename_i hsome
      rw [hsome, Except.ok.inj h]
    · cases h
  cases value with
  | nan | infinite => cases hfinite
  | finite s m q =>
    obtain ⟨rfl, hcanonical⟩ := Number.Binary64.canonical_of_read? hc hread
    have hfloat := Number.Binary64.floatText_text m q
    refine ⟨⟨[.float (Number.Binary64.finite false m q).text], .float ?_, fun rest hrest => ?_⟩, ?_⟩
    · rw [Parser.floatValue, Number.Binary64.read?_text hcanonical]
    · exact emits_float hfloat hrest.word
    · obtain ⟨d, ds, hds, hd, -⟩ := hfloat
      refine ⟨d, ds, hds, ?_⟩
      rintro rfl
      cases hd

private theorem rendersSpelling_string {value : String} {span : Span}
    (h : ∀ c ∈ value.toList, Text.QuotedShort c) : (string value span).RendersSpelling := by
  refine ⟨⟨[.string (Text.quoted value)], .string ?_, fun rest _ => ?_⟩, ?_⟩
  · exact Text.stringValue_quoted h
  · exact emits_quoted h
  · exact ⟨'"', _, String.toList_ofList, by decide⟩

private theorem exists_head_of_isWord {text : String} (h : IsWord text) :
    ∃ c cs, text.toList = c :: cs ∧ c ≠ '=' := by
  obtain ⟨c, more, htext, hc, -⟩ := h
  refine ⟨c, more, htext, ?_⟩
  rintro rfl
  cases hc

private theorem rendersSpelling_word {e : Expr} (word : Keyword) (h : e.Spelled [.keyword word])
    (htext : e.render = word.spelling) : e.RendersSpelling := by
  refine ⟨⟨[.keyword word], h, fun rest hrest => ?_⟩, ?_⟩
  · rw [htext]
    exact emits_keyword word hrest.word
  · rw [htext]
    exact exists_head_of_isWord word.isWord_spelling

private theorem rendersSpelling_ident {name : String} {span : Span} (h : IsName name) :
    (ident name span).RendersSpelling := by
  refine ⟨⟨[.identifier name], .ident, fun rest hrest => ?_⟩, ?_⟩
  · rw [render]
    exact emits_name h hrest.word
  · rw [render]
    exact exists_head_of_isWord h.1

/-- An operation is scanned to tokens that spell it if its operands are and are tied together
tightly enough. -/
theorem rendersSpelling_binary {op : BinaryOp} {left right : Expr} {span : Span}
    (hleft : left.RendersSpelling) (hright : right.RendersSpelling)
    (hlevel : op.level ≤ left.level) (hlevel' : op.level < right.level) :
    (binary op left right span).RendersSpelling := by
  obtain ⟨⟨ks, hks, hleftTokens⟩, hhead⟩ := hleft
  obtain ⟨⟨ms, hms, hrightTokens⟩, -⟩ := hright
  refine ⟨⟨ks ++ .symbol op.symbol :: ms, .binary hlevel hks hlevel' hms, fun rest hrest => ?_⟩, ?_⟩
  · have htext : (binary op left right span).render.toList =
        left.render.toList ++ ' ' :: (op.sign.toList ++ ' ' :: right.render.toList) := by
      simp only [render, String.toList_append, List.append_assoc]
      rfl
    have hopLevel := op.level_lt
    have hends := hrest.endsExpr (Nat.lt_succ_of_lt hopLevel)
    have hblank : ∀ cs, EndsExpr (' ' :: cs) := endsExpr_cons rfl (by decide)
    rw [htext]
    exact (hleftTokens _ ((hblank _).leaves left)).append
      ((emits_binary op).append (hrightTokens _ (hends.leaves right)).blank).blank
  · rw [render, String.append_assoc, String.append_assoc, String.append_assoc]
    exact exists_head_append hhead _

/-- So is a sign in front of its operand. -/
theorem rendersSpelling_unary {op : UnaryOp} {operand : Expr} {span : Span}
    (h : operand.RendersSpelling) (hlevel : 7 ≤ operand.level) :
    (unary op operand span).RendersSpelling := by
  obtain ⟨⟨ks, hks, htokens⟩, c, cs, htext, hc⟩ := h
  refine ⟨⟨.symbol op.symbol :: ks, .unary hlevel hks, fun rest hrest => ?_⟩, ?_⟩
  · have hends := hrest.endsExpr (show 7 < 8 by decide)
    have hhead : (operand.render.toList ++ rest).head? ≠ some '=' := by
      rw [htext]
      rintro ⟨⟩
      exact hc rfl
    rw [render, String.toList_append]
    exact (emits_unary op hhead).append (htokens _ (hends.leaves operand))
  · rw [render]
    apply exists_head_append
    cases op with
    | neg => exact ⟨'-', _, rfl, by decide⟩
    | plus => exact ⟨'+', _, rfl, by decide⟩
    | not => exact ⟨'!', _, rfl, by decide⟩

/-- So is an attribute behind a dot, unless an integer stands before it. -/
theorem rendersSpelling_field {object : Expr} {name : String} {span : Span}
    (h : object.RendersSpelling) (hlevel : 8 ≤ object.level) (hinteger : object.isInteger = false)
    (hname : IsName name) : (field object name span).RendersSpelling := by
  obtain ⟨⟨ks, hks, htokens⟩, hhead⟩ := h
  refine ⟨⟨ks ++ [.symbol .dot, .identifier name], .field hlevel hks, fun rest hrest => ?_⟩, ?_⟩
  · have htext : (field object name span).render.toList =
        object.render.toList ++ '.' :: name.toList := by
      simp only [render, String.toList_append, List.append_assoc]
      rfl
    have hpoint : object.Leaves ('.' :: name.toList ++ rest) :=
      ⟨by rintro c ⟨⟩; rfl, fun _ => ⟨hlevel, hinteger⟩⟩
    rw [htext]
    exact (htokens _ hpoint).append ((emits_name hname hrest.word).sign (by decide))
  · rw [render, String.append_assoc]
    exact exists_head_append hhead _

/-- So is an element. -/
theorem rendersSpelling_index {object position : Expr} {span : Span}
    (h : object.RendersSpelling) (hlevel : 8 ≤ object.level)
    (hposition : position.RendersSpelling) :
    (index object position span).RendersSpelling := by
  obtain ⟨⟨ks, hks, htokens⟩, hhead⟩ := h
  obtain ⟨⟨ms, hms, hpositionTokens⟩, -⟩ := hposition
  refine ⟨⟨ks ++ .symbol .lbracket :: (ms ++ [.symbol .rbracket]), .index hlevel hks hms,
    fun rest hrest => ?_⟩, ?_⟩
  · have htext : (index object position span).render.toList =
        object.render.toList ++ '[' :: (position.render.toList ++ [']']) := by
      simp only [render, String.toList_append, List.append_assoc]
      rfl
    have hbracket : ∀ cs, EndsExpr ('[' :: cs) := endsExpr_cons rfl (by decide)
    rw [htext]
    refine (htokens _ ((hbracket _).leaves object)).append ?_
    exact emits_between (by decide) (by decide) (by decide)
      fun rest hrest => hpositionTokens rest (hrest.leaves position)
  · rw [render, String.append_assoc, String.append_assoc]
    exact exists_head_append hhead _

private theorem rendersSpelling_paren {inner : Expr} {span : Span} (h : inner.RendersSpelling) :
    (paren inner span).RendersSpelling := by
  obtain ⟨⟨ks, hks, htokens⟩, -⟩ := h
  have htext : (paren inner span).render.toList = '(' :: (inner.render.toList ++ [')']) := by
    simp only [render, String.toList_append, List.append_assoc]
    rfl
  refine ⟨⟨.symbol .lparen :: (ks ++ [.symbol .rparen]), .paren hks, fun rest _ => ?_⟩, ?_⟩
  · rw [htext]
    exact emits_between (by decide) (by decide) (by decide)
      fun rest hrest => htokens rest (hrest.leaves inner)
  · exact ⟨'(', _, htext, by decide⟩

/-- Expressions with commas between them are scanned one by one. -/
theorem emits_separated {es : List Expr} (hne : es ≠ []) (h : ∀ e ∈ es, e.RendersSpelling) :
    ∃ us, Separated .comma Spelled us es ∧
      ∀ rest, EndsExpr rest → Emits (", ".intercalate (renderAll es)).toList us rest := by
  induction es with
  | nil => exact absurd rfl hne
  | cons e es ih =>
    rw [List.forall_mem_cons] at h
    obtain ⟨⟨ks, hks, htokens⟩, -⟩ := h.1
    cases es with
    | nil =>
      refine ⟨ks, .one hks, fun rest hrest => ?_⟩
      rw [renderAll, renderAll, String.intercalate_singleton]
      exact htokens rest (hrest.leaves e)
    | cons e' es =>
      obtain ⟨ms, hms, hmore⟩ := ih (List.cons_ne_nil e' es) h.2
      refine ⟨ks ++ .symbol .comma :: ms, .more hks hms, fun rest hrest => ?_⟩
      have htext : (", ".intercalate (renderAll (e :: e' :: es))).toList =
          e.render.toList ++ ',' :: ' ' :: (", ".intercalate (renderAll (e' :: es))).toList := by
        simp only [renderAll, String.intercalate_cons_cons, String.toList_append,
          List.append_assoc]
        rfl
      have hcomma : ∀ cs, EndsExpr (',' :: cs) := endsExpr_cons rfl (by decide)
      rw [htext]
      exact (htokens _ ((hcomma _).leaves e)).append ((hmore rest hrest).blank.sign (by decide))

/-- Arguments are scanned to a list in parentheses. -/
theorem emits_arguments {args : List Expr} (h : ∀ e ∈ args, e.RendersSpelling) :
    ∃ us, Listed .comma Spelled us args ∧
      ∀ rest, Emits ('(' :: ((", ".intercalate (renderAll args)).toList ++ [')']))
        (.symbol .lparen :: (us ++ [.symbol .rparen])) rest := by
  by_cases hne : args = []
  · subst hne
    exact ⟨[], .none, fun rest => (emits_nil.sign (by decide)).sign (by decide)⟩
  · obtain ⟨us, hus, htokens⟩ := emits_separated hne h
    exact ⟨us, .some hus, fun rest => emits_between (by decide) (by decide) (by decide) htokens⟩

private theorem rendersSpelling_array {elements : List Expr} {span : Span} (hne : elements ≠ [])
    (h : ∀ e ∈ elements, e.RendersSpelling) : (array elements span).RendersSpelling := by
  obtain ⟨ks, hks, htokens⟩ := emits_separated hne h
  have htext : (array elements span).render.toList =
      '\x7b' :: ((", ".intercalate (renderAll elements)).toList ++ ['\x7d']) := by
    simp only [render, String.toList_append, List.append_assoc]
    rfl
  refine ⟨⟨.symbol .lbrace :: (ks ++ [.symbol .rbrace]), .array hks, fun rest _ => ?_⟩, ?_⟩
  · rw [htext]
    exact emits_between (by decide) (by decide) (by decide) htokens
  · exact ⟨'\x7b', _, htext, by decide⟩

private theorem rendersSpelling_create {className : String} {args : List Expr} {span : Span}
    (hname : IsName className) (h : ∀ e ∈ args, e.RendersSpelling) :
    (create className args span).RendersSpelling := by
  obtain ⟨ks, hks, htokens⟩ := emits_arguments h
  refine ⟨⟨_, .create hks, fun rest hrest => ?_⟩, ?_⟩
  · have htext : (create className args span).render.toList =
        Keyword.kwNew.spelling.toList ++ ' ' :: (className.toList ++
          '(' :: ((", ".intercalate (renderAll args)).toList ++ [')'])) := by
      simp only [render, String.toList_append, List.append_assoc]
      rfl
    have hblank : ∀ cs, EndsExpr (' ' :: cs) := endsExpr_cons rfl (by decide)
    have hparen : ∀ cs, EndsExpr ('(' :: cs) := endsExpr_cons rfl (by decide)
    rw [htext]
    exact (emits_keyword .kwNew (hblank _).word).append
      ((emits_name hname (hparen _).word).append (htokens rest)).blank
  · simp only [render, String.append_assoc]
    exact exists_head_append ⟨'n', ['e', 'w', ' '], rfl, by decide⟩ _

/-- A call is scanned to tokens that spell it, unless an integer stands before the dot. -/
theorem rendersSpelling_call {receiver : Expr} {method : String} {args : List Expr} {span : Span}
    (h : receiver.RendersSpelling) (hlevel : 8 ≤ receiver.level)
    (hinteger : receiver.isInteger = false) (hname : IsName method)
    (hargs : ∀ e ∈ args, e.RendersSpelling) :
    (call receiver method args span).RendersSpelling := by
  obtain ⟨⟨ks, hks, htokens⟩, hhead⟩ := h
  obtain ⟨ms, hms, hargTokens⟩ := emits_arguments hargs
  refine ⟨⟨_, .call hlevel hks hms, fun rest hrest => ?_⟩, ?_⟩
  · have htext : (call receiver method args span).render.toList =
        receiver.render.toList ++ '.' :: (method.toList ++
          '(' :: ((", ".intercalate (renderAll args)).toList ++ [')'])) := by
      simp only [render, String.toList_append, List.append_assoc]
      rfl
    have hpoint : ∀ cs, receiver.Leaves ('.' :: cs) :=
      fun cs => ⟨by rintro c ⟨⟩; rfl, fun _ => ⟨hlevel, hinteger⟩⟩
    have hparen : ∀ cs, EndsExpr ('(' :: cs) := endsExpr_cons rfl (by decide)
    rw [htext]
    exact (htokens _ (hpoint _)).append
      (((emits_name hname (hparen _).word).append (hargTokens rest)).sign (by decide))
  · simp only [render, String.append_assoc]
    exact exists_head_append hhead _

/-- The source form of an expression that was spelled by scanned tokens is scanned to tokens that
spell it again. -/
theorem rendersSpelling (e : Expr) {us : List TokenKind} (h : e.Spelled us)
    (hus : ∀ k ∈ us, k.Lexical) (he : e.Rereads) : e.RendersSpelling := by
  have hchildren : ∀ c ∈ e.children, c.RendersSpelling := by
    intro c hc
    obtain ⟨vs, hvs, hsub⟩ := h.exists_of_mem_children hc
    have hsize := sizeOf_lt_of_mem_children hc
    exact rendersSpelling c hvs (fun k hk => hus k (hsub hk)) (he.child hc)
  have hself := he e e.self_mem_parts
  cases h with
  | int hvalue => exact rendersSpelling_int hvalue (hus _ List.mem_cons_self)
  | float hvalue =>
    exact rendersSpelling_float hvalue (hus _ List.mem_cons_self) hself
  | string _ =>
    exact rendersSpelling_string fun c hc => of_decide_eq_true (List.all_eq_true.mp hself c hc)
  | true => exact rendersSpelling_word .kwTrue .true (by rw [render]; rfl)
  | false => exact rendersSpelling_word .kwFalse .false (by rw [render]; rfl)
  | nil => exact rendersSpelling_word .kwNil .nil (by rw [render]; rfl)
  | self => exact rendersSpelling_word .kwThis .self (by rw [render]; rfl)
  | @ident name _ => exact rendersSpelling_ident (hus (.identifier name) (by simp))
  | @create className _ _ _ _ =>
    exact rendersSpelling_create (hus (.identifier className) (by simp)) hchildren
  | paren _ => exact rendersSpelling_paren (hchildren _ (by simp [children]))
  | array helements => exact rendersSpelling_array helements.ne_nil hchildren
  | @field _ _ name _ hlevel _ =>
    exact rendersSpelling_field (hchildren _ (by simp [children])) hlevel
      (by simpa [isRereadable] using hself) (hus (.identifier name) (by simp))
  | @call _ _ _ method _ _ hlevel _ _ =>
    exact rendersSpelling_call (hchildren _ (by simp [children])) hlevel
      (by simpa [isRereadable] using hself) (hus (.identifier method) (by simp))
      fun e he => hchildren e (by simp [children, he])
  | index hlevel _ _ =>
    exact rendersSpelling_index (hchildren _ (by simp [children])) hlevel
      (hchildren _ (by simp [children]))
  | unary hlevel _ => exact rendersSpelling_unary (hchildren _ (by simp [children])) hlevel
  | binary hlevel _ hlevel' _ =>
    exact rendersSpelling_binary (hchildren _ (by simp [children]))
      (hchildren _ (by simp [children])) hlevel hlevel'
termination_by sizeOf e

end Expr

end ClassCheck
