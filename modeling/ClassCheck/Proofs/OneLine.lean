import ClassCheck.Proofs.Diagnostics

/-!
# Verdicts on one line

No lexeme runs over a line feed, but for a comment that is never closed. So what a message quotes
from the source text stands on one line, and so does what it quotes in source form, where strings
are written with escapes. A verdict therefore is one line unless it quotes a comment of several
lines that is never closed.
-/

namespace ClassCheck

namespace Text

/-- A text has no line feed. -/
def OneLine (text : String) : Prop := '\n' ∉ text.toList

instance (text : String) : Decidable (OneLine text) :=
  inferInstanceAs (Decidable ('\n' ∉ text.toList))

/-- Two texts together stand on one line just if both do. -/
theorem oneLine_append_iff {a b : String} : OneLine (a ++ b) ↔ OneLine a ∧ OneLine b := by
  rw [OneLine, String.toList_append, List.mem_append, not_or]
  rfl

/-- Texts on one line are put together on one line. -/
theorem OneLine.append {a b : String} (ha : OneLine a) (hb : OneLine b) : OneLine (a ++ b) :=
  oneLine_append_iff.mpr ⟨ha, hb⟩

private theorem oneLine_ofList_iff {cs : List Char} : OneLine (String.ofList cs) ↔ '\n' ∉ cs := by
  rw [OneLine, String.toList_ofList]

/-- Texts are put together on one line if what stands between them does, too. -/
theorem oneLine_intercalate {between : String} (hbetween : OneLine between) {texts : List String}
    (h : ∀ text ∈ texts, OneLine text) : OneLine (between.intercalate texts) := by
  induction texts with
  | nil => exact List.not_mem_nil
  | cons text texts ih =>
    obtain ⟨htext, htexts⟩ := List.forall_mem_cons.mp h
    cases texts with
    | nil => rwa [String.intercalate_singleton]
    | cons text' texts =>
      rw [String.intercalate_cons_cons]
      exact (htext.append hbetween).append (ih htexts)

/-! ## Numbers and quoted texts -/

private theorem digitChar_ne_lineFeed : ∀ n < 16, Nat.digitChar n ≠ '\n' := by decide

/-- Digits of a number are no line feeds. -/
theorem lineFeed_notMem_toDigits {base : Nat} (hone : 1 < base) (hbase : base ≤ 16) (n : Nat) :
    '\n' ∉ Nat.toDigits base n := by
  induction n using Nat.strong_induction_on with
  | _ n ih =>
    rw [Nat.toDigits_eq_if hone]
    split
    · rw [List.mem_singleton]
      exact (digitChar_ne_lineFeed n (by omega)).symm
    · have hless : n / base < n := Nat.div_lt_self (by omega) hone
      have hlast : n % base < 16 := (Nat.mod_lt n (by omega)).trans_le hbase
      rw [List.mem_append, List.mem_singleton, not_or]
      exact ⟨ih _ hless, (digitChar_ne_lineFeed _ hlast).symm⟩

private theorem oneLine_nat (n : Nat) : OneLine (toString n) := by
  rw [Nat.toString_eq_ofList_toDigits, oneLine_ofList_iff]
  exact lineFeed_notMem_toDigits (by decide) (by decide) n

private theorem oneLine_int (n : Int) : OneLine (toString n) := by
  cases n with
  | ofNat n => exact oneLine_nat n
  | negSucc n => exact OneLine.append (by decide) (oneLine_nat (n + 1))

/-- A line feed in a string is quoted by an escape. -/
theorem lineFeed_notMem_quotedChar (c : Char) : '\n' ∉ quotedChar c := by
  unfold quotedChar
  split_ifs with hquote hbackslash hfeed hreturn htab hzero hhidden
  iterate 6 decide
  · have hdigits : '\n' ∉ Nat.toDigits 16 c.toNat :=
      lineFeed_notMem_toDigits (by decide) (by decide) c.toNat
    simp [codePointEscape, hdigits]
  · simpa using Ne.symm hfeed

/-- So a quoted text stands on one line. -/
theorem oneLine_quoted (text : String) : OneLine (quoted text) := by
  have hbody : '\n' ∉ text.toList.flatMap quotedChar := by
    rw [List.mem_flatMap]
    rintro ⟨c, -, hc⟩
    exact lineFeed_notMem_quotedChar c hc
  rw [quoted, oneLine_ofList_iff]
  simp [hbody]

end Text

open Text

namespace Number

private theorem lineFeed_notMem_placePoint {ds : List Char} (hds : '\n' ∉ ds) (point : Int) :
    '\n' ∉ placePoint ds point := by
  unfold placePoint
  split
  · simp [hds, List.mem_replicate]
  · have htake := fun n => mt (List.mem_of_mem_take (i := n)) hds
    have hdrop := fun n => mt (List.mem_of_mem_drop (i := n)) hds
    dsimp only
    split <;> simp [htake, hdrop, List.mem_replicate]

private theorem lineFeed_notMem_withExponent {ds : List Char} (hds : '\n' ∉ ds) (exponent : Int) :
    '\n' ∉ withExponent ds exponent := by
  have hexponent : '\n' ∉ (toString exponent).toList := oneLine_int exponent
  unfold withExponent
  rw [List.mem_append, List.mem_cons, not_or, not_or]
  refine ⟨?_, by decide, hexponent⟩
  split
  · rw [List.mem_cons, not_or] at hds
    simpa using hds
  · exact hds

/-- A number with a fraction is written on one line. -/
theorem Binary64.oneLine_text (x : Binary64) : OneLine x.text := by
  cases x with
  | nan => decide
  | infinite negative => cases negative <;> decide
  | finite negative m q =>
    have hdigits : '\n' ∉ Nat.toDigits 10 (shortest m q).digits :=
      lineFeed_notMem_toDigits (by decide) (by decide) _
    have hchars : '\n' ∉ (shortest m q).chars := by
      unfold Decimal.chars
      dsimp only
      split
      · exact lineFeed_notMem_placePoint hdigits _
      · exact lineFeed_notMem_withExponent hdigits _
    unfold Binary64.text
    rw [oneLine_ofList_iff]
    cases negative <;> by_cases hm : m = 0 <;> simp [hm, hchars]

end Number

/-! ## Lexemes -/

namespace Lexeme

/-- A run of characters that are no line feeds has none. -/
theorem lineFeed_notMem_run {p : Char → Bool} (hp : p '\n' = false) (cs : List Char) :
    '\n' ∉ cs.take (runLength p cs) := by
  rw [take_runLength]
  intro hmem
  rw [List.mem_takeWhile_imp hmem] at hp
  cases hp

private theorem lineFeed_notMem_take_add {cs : List Char} {m n : Nat} (hm : '\n' ∉ cs.take m)
    (hn : '\n' ∉ (cs.drop m).take n) : '\n' ∉ cs.take (m + n) := by
  rw [List.take_add, List.mem_append, not_or]
  exact ⟨hm, hn⟩

private theorem lineFeed_notMem_sign (cs : List Char) : '\n' ∉ cs.take (signLength cs) := by
  unfold signLength
  split
  · rename_i hhead
    rcases hhead with hhead | hhead <;>
      rw [List.eq_cons_of_mem_head? hhead, List.take_succ_cons, List.take_zero] <;> decide
  · simp

private theorem lineFeed_notMem_exponent (cs : List Char) : '\n' ∉ cs.take (exponentLength cs) := by
  cases cs with
  | nil => simp
  | cons mark cs =>
    rw [exponentLength_cons]
    split
    · rename_i hmark
      have hdigits := lineFeed_notMem_run (p := Char.isDigit) rfl (cs.drop (signLength cs))
      have htail := lineFeed_notMem_take_add (lineFeed_notMem_sign cs) hdigits
      rw [Nat.add_assoc, Nat.add_comm 1, List.take_succ_cons, List.mem_cons, not_or]
      refine ⟨?_, htail⟩
      rintro rfl
      revert hmark
      simp
    · simp

/-- A number has no line feed in it. -/
theorem lineFeed_notMem_number (cs : List Char) : '\n' ∉ cs.take (numberTail cs).2 := by
  have hwhole := lineFeed_notMem_run (p := Char.isDigit) rfl cs
  by_cases hpoint : (cs.drop (runLength Char.isDigit cs)).head? = some '.'
  · obtain ⟨rest, hrest⟩ : ∃ rest, cs.drop (runLength Char.isDigit cs) = '.' :: rest :=
      ⟨_, List.eq_cons_of_mem_head? hpoint⟩
    have hfraction := lineFeed_notMem_take_add (lineFeed_notMem_run (p := Char.isDigit) rfl rest)
      (lineFeed_notMem_exponent _)
    rw [numberTail_point hrest, Nat.add_assoc, Nat.add_assoc]
    refine lineFeed_notMem_take_add hwhole ?_
    rw [hrest, Nat.add_comm 1, List.take_succ_cons, List.mem_cons, not_or]
    exact ⟨by decide, hfraction⟩
  · rw [numberTail_plain hpoint]
    exact lineFeed_notMem_take_add hwhole (lineFeed_notMem_exponent _)

private theorem lineFeed_notMem_items (cs : List Char) : '\n' ∉ cs.take (itemsLength cs) := by
  fun_induction itemsLength cs with
  | case1 => simp
  | case2 c cs hc ih => simp [ih, Ne.symm hc]
  | case3 => simp
  | case4 c cs _ hc ih =>
    rw [not_or, not_or] at hc
    simp [ih, Ne.symm hc.2.2]
  | case5 => simp

/-- A string has none, whether it is closed or not. -/
theorem lineFeed_notMem_string (cs : List Char) : '\n' ∉ cs.take (stringTail cs).2 := by
  unfold stringTail
  dsimp only
  split
  · rename_i rest hrest
    refine lineFeed_notMem_take_add (lineFeed_notMem_items cs) ?_
    rw [hrest]
    simp
  · exact lineFeed_notMem_items cs

private theorem pairSymbol?_ne_lineFeed {c d : Char} {sign : Symbol}
    (h : pairSymbol? c d = some sign) : '\n' ≠ d := by
  rintro rfl
  unfold pairSymbol? at h
  split at h <;> simp_all

/-- A sign stays on its line, and what else starts with a slash and a star is a comment. -/
theorem lineFeed_notMem_signTail (c : Char) (cs : List Char) :
    '\n' ∉ cs.take (signTail c cs).2 ∨
      signTail c cs = (.openComment, cs.length) ∧ ['/', '*'] <+: c :: cs := by
  have hsingle : ∀ ds : List Char, '\n' ∉ ds.take (singleTail c).2 := by
    unfold singleTail
    cases singleSymbol? c <;> simp
  unfold signTail
  split
  · exact .inl (hsingle [])
  · rename_i d cs
    split
    · rename_i hcomment
      obtain ⟨rfl, rfl⟩ := hcomment
      exact .inr ⟨rfl, cs, rfl⟩
    · split
      · rename_i sign hsign
        exact .inl (by simpa using pairSymbol?_ne_lineFeed hsign)
      · exact .inl (hsingle _)

/-- A lexeme stays on its line, unless it is a comment that is never closed and takes the rest of
the text. -/
theorem Heads.lineFeed_notMem {shape : Shape} {c : Char} {more rest : List Char}
    (h : Heads shape c more rest) :
    '\n' ∉ c :: more ∨ shape = .openComment ∧ ['/', '*'] <+: c :: more ∧ rest = [] := by
  have hc : '\n' ≠ c := by
    rintro rfl
    have hblank : isBlank '\n' = true := rfl
    have htrivia := h.noTrivia
    rw [triviumLength_blank hblank, runLength_cons, if_pos hblank] at htrivia
    omega
  have htail := h.tail
  have hmore : (more ++ rest).take more.length = more := List.take_left
  rw [List.mem_cons, not_or, and_iff_right hc]
  unfold Lexeme.tail at htail
  split at htail
  · have hstring := lineFeed_notMem_string (more ++ rest)
    rw [htail, hmore] at hstring
    exact .inl hstring
  · split at htail
    · have hword := lineFeed_notMem_run (p := isWordChar) rfl (more ++ rest)
      rw [(Prod.mk.inj htail).2, hmore] at hword
      exact .inl hword
    · split at htail
      · have hnumber := lineFeed_notMem_number (more ++ rest)
        rw [htail, hmore] at hnumber
        exact .inl hnumber
      · have hsign := lineFeed_notMem_signTail c (more ++ rest)
        rw [htail, hmore] at hsign
        refine hsign.imp_right ?_
        rintro ⟨hshape, hcomment⟩
        obtain ⟨rfl, hlength⟩ := Prod.mk.inj hshape
        have hrest : rest = [] := by
          rw [List.length_append] at hlength
          exact List.length_eq_zero_iff.mp (by omega)
        subst hrest
        exact ⟨rfl, by simpa using hcomment, rfl⟩

end Lexeme

/-- Every token is written on one line. -/
def TokenKind.OneLiners (ks : List TokenKind) : Prop := ∀ k ∈ ks, OneLine k.spelling

namespace TokenKind

@[simp] private theorem oneLiners_cons_iff {k : TokenKind} {ks : List TokenKind} :
    OneLiners (k :: ks) ↔ OneLine k.spelling ∧ OneLiners ks := List.forall_mem_cons

@[simp] private theorem oneLiners_append_iff {ks ms : List TokenKind} :
    OneLiners (ks ++ ms) ↔ OneLiners ks ∧ OneLiners ms := List.forall_mem_append

private theorem OneLiners.oneLine_identifier {ks : List TokenKind} (h : OneLiners ks)
    {name : String} (hname : .identifier name ∈ ks) : OneLine name := h _ hname

/-- What some of the tokens spell is spelled by tokens that are written on one line too. -/
theorem OneLiners.of_subset {α : Type} {R : List TokenKind → α → Prop} {a : α}
    {ks : List TokenKind} (hks : OneLiners ks) (h : ∃ ms, R ms a ∧ ms ⊆ ks) :
    ∃ ms, R ms a ∧ OneLiners ms := by
  obtain ⟨ms, ha, hsub⟩ := h
  exact ⟨ms, ha, fun k hk => hks k (hsub hk)⟩

end TokenKind

namespace Scanner

open Lexeme

/-- Every answer is the one to a lexeme of the text. -/
theorem Reads.exists_heads {s s' : Scanner} {answers : List Answer} (h : Reads s answers s')
    {a : Answer} (ha : a ∈ answers) :
    ∃ before shape c more rest offset, s.rest = before ++ c :: (more ++ rest) ∧
      Heads shape c more rest ∧ a = .ofLexeme shape offset (c :: more) := by
  induction h with
  | done => cases ha
  | @lexeme shape c w more rest offset answers s' _ hheads _ ih =>
    rcases List.mem_cons.mp ha with rfl | ha
    · exact ⟨w, shape, c, more, rest, _, rfl, hheads, rfl⟩
    · obtain ⟨before, shape', c', more', rest', offset', hrest, hheads', rfl⟩ := ih ha
      refine ⟨w ++ c :: more ++ before, shape', c', more', rest', offset', ?_, hheads', rfl⟩
      dsimp only at hrest ⊢
      rw [hrest]
      simp

end Scanner

/-- The tokens of a text are written on one line. -/
theorem Scanned.oneLiners {source : String} {us : List Token} (h : Scanned source us) :
    TokenKind.OneLiners (us.map Token.kind) := by
  intro k hk
  obtain ⟨u, hu, rfl⟩ := List.mem_map.mp hk
  obtain ⟨s', hreads⟩ := h.reads
  obtain ⟨-, shape, c, more, rest, offset, -, hheads, hanswer⟩ :=
    hreads.exists_heads (List.mem_map_of_mem hu)
  obtain ⟨hkind, -⟩ := Scanner.Answer.eq_of_ofLexeme_eq_ok hanswer.symm
  rw [(hheads.spelling hkind).2, oneLine_ofList_iff]
  rcases hheads.lineFeed_notMem with hline | ⟨rfl, -⟩
  · exact hline
  · cases hkind

/-! ## Lexical and syntax errors -/

/-- The message about an unexpected text stands on one line just if the text does. -/
theorem LexicalFault.oneLine_unexpected_iff {slice : String} :
    OneLine (LexicalFault.unexpected slice).message ↔ OneLine slice := by
  unfold LexicalFault.message
  rw [oneLine_append_iff, oneLine_append_iff]
  exact ⟨fun h => h.1.2, fun h => ⟨⟨by decide, h⟩, by decide⟩⟩

/-- A lexical error quotes one line, or a comment up to the end of the text. -/
theorem oneLine_of_lexical {source : String} {e : LexicalError} (h : tokenize source = .error e) :
    OneLine e.fault.message ∨
      ∃ comment, e.fault = .unexpected comment ∧ ['/', '*'] <+: comment.toList ∧
        comment.toList <:+ source.toList := by
  obtain ⟨answers, s', hreads, -, he⟩ := Scanner.exists_reads_of_error h
  obtain ⟨before, shape, c, more, rest, offset, hrest, hheads, hanswer⟩ :=
    hreads.exists_heads he
  have hfault := Scanner.Answer.eq_of_ofLexeme_eq_error hanswer.symm
  rcases hheads.lineFeed_notMem with hline | ⟨rfl, hcomment, rfl⟩
  · have hquoted : OneLine (LexicalFault.unexpected (String.ofList (c :: more))).message :=
      LexicalFault.oneLine_unexpected_iff.mpr (oneLine_ofList_iff.mpr hline)
    refine .inl ?_
    cases shape with
    | word =>
      unfold Lexeme.classify at hfault
      dsimp only at hfault
      split at hfault <;> cases hfault
    | integer | float | string | sign sign => cases hfault
    | openString =>
      rw [← Except.error.inj hfault]
      decide
    | openComment | stray => rwa [← Except.error.inj hfault]
  · rw [List.append_nil] at hrest
    refine .inr ⟨_, (Except.error.inj hfault).symm, ?_⟩
    rw [String.toList_ofList]
    exact ⟨hcomment, before, hrest.symm⟩

/-- A token is described on one line if it is spelled so. -/
theorem TokenKind.oneLine_describe {k : TokenKind} (h : OneLine k.spelling) :
    OneLine k.describe := by
  unfold TokenKind.describe
  cases k with
  | eof => decide
  | string text => exact OneLine.append (by decide) h
  | _ => exact (OneLine.append (by decide) h).append (by decide)

/-- A token without a text of its own is described on one line. -/
theorem TokenKind.oneLine_of_textless {k : TokenKind} (h : k.text? = none) :
    OneLine k.describe := by
  cases k with
  | keyword word => cases word <;> decide
  | symbol sign => cases sign <;> decide
  | eof => decide
  | _ => cases h

/-- What a syntax error says is one line if the tokens are. -/
theorem SyntaxFault.Cites.oneLine {ks : List TokenKind} {fault : SyntaxFault}
    (h : fault.Cites ks) (hks : TokenKind.OneLiners ks) : OneLine fault.message := by
  unfold SyntaxFault.message
  cases fault with
  | expected what found =>
    have hwhat : OneLine what.text := by
      cases what with
      | token kind => exact TokenKind.oneLine_of_textless h.1
      | _ => decide
    have hfound : OneLine found.describe := by
      rcases h.2 with rfl | hmem
      · decide
      · exact TokenKind.oneLine_describe (hks found hmem)
    exact ((OneLine.append (by decide) hwhat).append (by decide)).append hfound
  | integerRange text | invalidFloat text =>
    have htext : OneLine text := hks _ h
    exact (OneLine.append (by decide) htext).append (by decide)
  | unknownEscape c =>
    obtain ⟨text, htext, hc⟩ := h
    have hline : OneLine text := hks _ htext
    have hescape : OneLine (String.singleton c) := by
      rw [OneLine, String.toList_singleton, List.mem_singleton]
      rintro rfl
      exact hline hc
    exact (OneLine.append (by decide) hescape).append (by decide)
  | _ => decide

/-! ## Source forms -/

open TokenKind

private theorem Primitive.oneLine_text (type : Primitive) : OneLine type.text := by
  cases type <;> decide

/-- A written type is rendered on one line if its tokens are spelled so. -/
theorem WrittenType.Spelled.oneLine {ks : List TokenKind} {type : WrittenType}
    (h : type.Spelled ks) (hks : OneLiners ks) : OneLine type.render := by
  induction h with
  | @primitive type => exact type.oneLine_text
  | named => exact hks.oneLine_identifier List.mem_cons_self
  | @array ks element text size span _ _ _ ih =>
    have helement := ih (oneLiners_append_iff.mp hks).1
    exact ((helement.append (by decide)).append (oneLine_nat size)).append (by decide)
  | reference _ _ ih => exact (ih (oneLiners_append_iff.mp hks).1).append (by decide)

private theorem BinaryOp.oneLine_sign (op : BinaryOp) : OneLine op.sign := by
  cases op <;> decide

private theorem UnaryOp.oneLine_sign (op : UnaryOp) : OneLine op.sign := by
  cases op <;> decide

namespace Expr

mutual

/-- An expression is written on one line if its tokens are. -/
theorem oneLine_render (e : Expr) {ks : List TokenKind} (h : e.Spelled ks) (hks : OneLiners ks) :
    OneLine e.render := by
  have hcomma : OneLine ", " := by decide
  cases e with
  | int value => exact oneLine_int value
  | float value => exact value.oneLine_text
  | bool value =>
    cases value
    · exact (by decide : OneLine "false")
    · exact (by decide : OneLine "true")
  | string value => exact oneLine_quoted value
  | nil => exact (by decide : OneLine "nil")
  | self => exact (by decide : OneLine "this")
  | ident name =>
    cases h
    exact hks.oneLine_identifier List.mem_cons_self
  | binary op left right =>
    cases h with
    | binary _ hleft _ hright =>
      simp only [oneLiners_append_iff, oneLiners_cons_iff] at hks
      have hl := oneLine_render left hleft hks.1
      have hr := oneLine_render right hright hks.2.2
      rw [render]
      exact (((hl.append (by decide)).append op.oneLine_sign).append (by decide)).append hr
  | unary op operand =>
    cases h with
    | unary _ hoperand =>
      rw [oneLiners_cons_iff] at hks
      rw [render]
      exact op.oneLine_sign.append (oneLine_render operand hoperand hks.2)
  | field object name =>
    cases h with
    | field _ hobject =>
      simp only [oneLiners_append_iff, oneLiners_cons_iff] at hks
      have ho := oneLine_render object hobject hks.1
      rw [render]
      exact (ho.append (by decide)).append hks.2.2.1
  | call receiver method args =>
    cases h with
    | call _ hreceiver hargs =>
      simp only [oneLiners_append_iff, oneLiners_cons_iff] at hks
      obtain ⟨hreceiverKs, -, hmethod, -, hargsKs, -⟩ := hks
      have hr := oneLine_render receiver hreceiver hreceiverKs
      have ha := oneLine_renderAll args fun e he => hargsKs.of_subset (hargs.exists_of_mem he)
      rw [render]
      exact ((((hr.append (by decide)).append hmethod).append (by decide)).append
        (oneLine_intercalate hcomma ha)).append (by decide)
  | index object position =>
    cases h with
    | index _ hobject hposition =>
      simp only [oneLiners_append_iff, oneLiners_cons_iff] at hks
      have ho := oneLine_render object hobject hks.1
      have hp := oneLine_render position hposition hks.2.2.1
      rw [render]
      exact ((ho.append (by decide)).append hp).append (by decide)
  | create className args =>
    cases h with
    | create hargs =>
      simp only [oneLiners_append_iff, oneLiners_cons_iff] at hks
      obtain ⟨-, hname, -, hargsKs, -⟩ := hks
      have ha := oneLine_renderAll args fun e he => hargsKs.of_subset (hargs.exists_of_mem he)
      rw [render]
      exact (((OneLine.append (by decide) hname).append (by decide)).append
        (oneLine_intercalate hcomma ha)).append (by decide)
  | array elements =>
    cases h with
    | array helements =>
      simp only [oneLiners_append_iff, oneLiners_cons_iff] at hks
      have he := oneLine_renderAll elements fun e he =>
        hks.2.1.of_subset (helements.exists_of_mem he)
      rw [render]
      exact (OneLine.append (by decide) (oneLine_intercalate hcomma he)).append (by decide)
  | paren inner =>
    cases h with
    | paren hinner =>
      simp only [oneLiners_append_iff, oneLiners_cons_iff] at hks
      have hi := oneLine_render inner hinner hks.2.1
      rw [render]
      exact (OneLine.append (by decide) hi).append (by decide)

private theorem oneLine_renderAll (es : List Expr)
    (h : ∀ e ∈ es, ∃ ks, e.Spelled ks ∧ OneLiners ks) : ∀ text ∈ renderAll es, OneLine text := by
  cases es with
  | nil => exact List.forall_mem_nil _
  | cons e es =>
    obtain ⟨⟨ks, hspelled, hks⟩, hes⟩ := List.forall_mem_cons.mp h
    exact List.forall_mem_cons.mpr ⟨oneLine_render e hspelled hks, oneLine_renderAll es hes⟩

end

end Expr

/-- So is a declared name with its initial value. -/
theorem Declarator.Spelled.oneLine {ks : List TokenKind} {d : Declarator} (h : d.Spelled ks)
    (hks : OneLiners ks) : OneLine d.render := by
  cases h with
  | plain => exact hks.oneLine_identifier List.mem_cons_self
  | init he =>
    simp only [oneLiners_cons_iff] at hks
    exact (hks.1.append (by decide)).append (Expr.oneLine_render _ he hks.2.2)

private theorem Declarator.oneLine_renderAll {ks : List TokenKind} {ds : List Declarator}
    (h : Separated .comma Declarator.Spelled ks ds) (hks : OneLiners ks) :
    OneLine (Declarator.renderAll ds) := by
  refine oneLine_intercalate (by decide) fun text htext => ?_
  obtain ⟨d, hd, rfl⟩ := List.mem_map.mp htext
  obtain ⟨ms, hspelled, hms⟩ := hks.of_subset (h.exists_of_mem hd)
  exact hspelled.oneLine hms

private theorem Direction.oneLine_word (direction : Direction) : OneLine direction.word := by
  cases direction <;> decide

namespace Stmt

mutual

/-- A statement is written on one line if its tokens are. -/
theorem oneLine_render (s : Stmt) {ks : List TokenKind} (h : s.Spelled ks) (hks : OneLiners ks) :
    OneLine s.render := by
  cases s with
  | declare isFinal type ds =>
    cases h with
    | declare htype hds =>
      simp only [oneLiners_append_iff] at hks
      have hfinal : OneLine (if isFinal then "final " else "") := by cases isFinal <;> decide
      have ht := htype.oneLine hks.1.1.2
      rw [render]
      exact ((hfinal.append ht).append (by decide)).append
        (Declarator.oneLine_renderAll hds hks.1.2)
  | assign target value =>
    cases h with
    | assign _ _ htarget hvalue =>
      simp only [oneLiners_append_iff, oneLiners_cons_iff] at hks
      have ht := target.oneLine_render htarget hks.1
      rw [render]
      exact (ht.append (by decide)).append (value.oneLine_render hvalue hks.2.2.1)
  | ifThen condition thenBranch =>
    cases h with
    | ifThen hcondition hthen =>
      simp only [oneLiners_append_iff, oneLiners_cons_iff] at hks
      obtain ⟨-, hconditionKs, -, hthenKs⟩ := hks
      have hc := condition.oneLine_render hcondition hconditionKs
      have ht := oneLine_render thenBranch hthen hthenKs
      rw [render]
      exact ((OneLine.append (by decide) hc).append (by decide)).append ht
  | ifElse condition thenBranch elseBranch =>
    cases h with
    | ifElse hcondition _ hthen helse =>
      simp only [oneLiners_append_iff, oneLiners_cons_iff] at hks
      obtain ⟨-, hconditionKs, -, hthenKs, -, helseKs⟩ := hks
      have hc := condition.oneLine_render hcondition hconditionKs
      have ht := oneLine_render thenBranch hthen hthenKs
      have he := oneLine_render elseBranch helse helseKs
      rw [render]
      exact ((((OneLine.append (by decide) hc).append (by decide)).append ht).append
        (by decide)).append he
  | loop counter first last direction body =>
    cases h with
    | loop hfirst hlast hbody =>
      simp only [oneLiners_append_iff, oneLiners_cons_iff] at hks
      obtain ⟨-, hcounter, -, hfirstKs, -, hlastKs, -, hbodyKs⟩ := hks
      have hf := first.oneLine_render hfirst hfirstKs
      have hl := last.oneLine_render hlast hlastKs
      have hb := oneLine_render body hbody hbodyKs
      rw [render]
      exact ((((((((OneLine.append (by decide) hcounter).append (by decide)).append hf).append
        (by decide)).append direction.oneLine_word).append (by decide)).append hl).append
        (by decide)).append hb
  | breakLoop => exact (by decide : OneLine "break")
  | continueLoop => exact (by decide : OneLine "continue")
  | returnValue value =>
    cases h with
    | returnNothing => exact (by decide : OneLine "return")
    | returnValue hvalue =>
      simp only [oneLiners_append_iff, oneLiners_cons_iff] at hks
      exact OneLine.append (by decide) (Expr.oneLine_render _ hvalue hks.2.1)
  | call invocation =>
    cases h with
    | call _ _ hinvocation =>
      exact invocation.oneLine_render hinvocation (oneLiners_append_iff.mp hks).1
  | block stmts =>
    cases h with
    | block hstmts =>
      simp only [oneLiners_append_iff, oneLiners_cons_iff] at hks
      rw [render]
      exact oneLine_renderBlock stmts fun s hs => hks.2.1.of_subset (hstmts.exists_of_mem hs)

/-- A block is rendered on one line if the tokens of its statements are spelled so. -/
theorem oneLine_renderBlock (ss : List Stmt) (h : ∀ s ∈ ss, ∃ ks, s.Spelled ks ∧ OneLiners ks) :
    OneLine (renderBlock ss) := by
  cases ss with
  | nil => exact (by decide : OneLine "\x7b\x7d")
  | cons s ss =>
    obtain ⟨⟨ks, hspelled, hks⟩, hss⟩ := List.forall_mem_cons.mp h
    have hs := oneLine_render s hspelled hks
    rw [renderBlock]
    exact (((OneLine.append (by decide) hs).append (by decide)).append
      (oneLine_renderItems ss hss)).append (by decide)

private theorem oneLine_renderItems (ss : List Stmt)
    (h : ∀ s ∈ ss, ∃ ks, s.Spelled ks ∧ OneLiners ks) : OneLine (renderItems ss) := by
  cases ss with
  | nil => exact (by decide : OneLine "")
  | cons s ss =>
    obtain ⟨⟨ks, hspelled, hks⟩, hss⟩ := List.forall_mem_cons.mp h
    have hs := oneLine_render s hspelled hks
    rw [renderItems]
    exact (hs.append (by decide)).append (oneLine_renderItems ss hss)

end

end Stmt

private theorem Block.Spelled.oneLine {ks : List TokenKind} {b : Block} (h : b.Spelled ks)
    (hks : OneLiners ks) : OneLine b.render := by
  cases h with
  | mk hstmts =>
    simp only [oneLiners_append_iff, oneLiners_cons_iff] at hks
    exact Stmt.oneLine_renderBlock _ fun s hs => hks.2.1.of_subset (hstmts.exists_of_mem hs)

/-- Parameters are rendered on one line if their tokens are spelled so. -/
theorem Param.ListSpelled.oneLine {ks : List TokenKind} {ps : List Param}
    (h : Param.ListSpelled ks ps) (hks : OneLiners ks) : OneLine (Param.renderAll ps) := by
  cases h with
  | mk hgroups =>
    simp only [oneLiners_append_iff, oneLiners_cons_iff] at hks
    suffices hall : ∀ text ∈ List.map Param.render _, OneLine text from
      (OneLine.append (by decide) (oneLine_intercalate (by decide) hall)).append (by decide)
    intro text htext
    obtain ⟨p, hp, rfl⟩ := List.mem_map.mp htext
    obtain ⟨group, hgroup, hin⟩ := List.mem_flatten.mp hp
    obtain ⟨ms, hspelled, hms⟩ := hks.2.1.of_subset (hgroups.exists_of_mem hgroup)
    cases hspelled with
    | mk htypes hnames =>
      rw [oneLiners_append_iff] at hms
      obtain ⟨vs, hname, hvs⟩ := hms.2.of_subset (hnames.exists_of_mem (List.mem_map_of_mem hin))
      obtain rfl : vs = [.identifier p.name] := hname
      have hident : OneLine p.name := hvs.oneLine_identifier List.mem_cons_self
      exact (((htypes p hin).oneLine hms.1).append (by decide)).append hident

private theorem ResultSpelled.oneLine {ks : List TokenKind} {result : Option WrittenType}
    (h : ResultSpelled ks result) (hks : OneLiners ks) :
    OneLine ((result.map WrittenType.render).getD "void") := by
  cases h with
  | void => decide
  | type htype => exact htype.oneLine hks

/-- A member is written on one line if its tokens are. -/
theorem Member.Spelled.oneLine {ks : List TokenKind} {m : Member} (h : m.Spelled ks)
    (hks : OneLiners ks) : OneLine m.render := by
  have hstatic : ∀ isStatic : Bool, OneLine (if isStatic then "static " else "") := by decide
  have hfinal : ∀ isFinal : Bool, OneLine (if isFinal then "final " else "") := by decide
  rcases h with ⟨_, htype, hds⟩ | ⟨_, hresult, hparams, hbody⟩ | ⟨hparams, hbody⟩ | hbody
  · simp only [oneLiners_append_iff] at hks
    have ht := htype.oneLine hks.1.1.2
    exact ((((hstatic _).append (hfinal _)).append ht).append (by decide)).append
      (Declarator.oneLine_renderAll hds hks.1.2)
  · simp only [oneLiners_append_iff, oneLiners_cons_iff] at hks
    obtain ⟨⟨-, hresultKs⟩, hname, hparamsKs, hbodyKs⟩ := hks
    have hr := hresult.oneLine hresultKs
    have hp := hparams.oneLine hparamsKs
    have hb := hbody.oneLine hbodyKs
    exact ((((((hstatic _).append hr).append (by decide)).append hname).append hp).append
      (by decide)).append hb
  · simp only [oneLiners_append_iff, oneLiners_cons_iff] at hks
    obtain ⟨hname, hparamsKs, hbodyKs⟩ := hks
    have hp := hparams.oneLine hparamsKs
    exact ((hname.append hp).append (by decide)).append (hbody.oneLine hbodyKs)
  · simp only [oneLiners_cons_iff] at hks
    obtain ⟨-, hname, -, -, hbodyKs⟩ := hks
    exact ((OneLine.append (by decide) hname).append (by decide)).append (hbody.oneLine hbodyKs)

/-! ## Violations -/

private theorem Declared.oneLine_text (what : Declared) : OneLine what.text := by
  cases what <;> decide

/-- A violation is told on one line if its subject stands on one. -/
theorem Violation.oneLine_message {rule : Rule} {subject : String} {span : Span}
    (h : OneLine subject) : OneLine (Violation.broken rule subject span).message := by
  unfold Violation.message
  cases rule with
  | redeclared what =>
    exact (((OneLine.append (by decide) what.oneLine_text).append (by decide)).append h).append
      (by decide)
  | _ => exact ((OneLine.append (by decide) (by decide)).append h).append (by decide)

/-- A member is declared under a name among its tokens. -/
theorem Member.Spelled.oneLine_name {ks : List TokenKind} {m : Member} (h : m.Spelled ks)
    (hks : OneLiners ks) {name : String} (hname : m.name? = some name) : OneLine name := by
  rcases h with _ | _ | _ | _ <;> cases hname <;> simp_all [TokenKind.spelling]

/-- What a violation says is one line if the tokens of the node that it is blamed on are. -/
theorem Node.Blamed.oneLine {n : Node} {v : Violation} {ks : List TokenKind} (h : n.Blamed v)
    (hn : n.Spelled ks) (hks : OneLiners ks) : OneLine v.message := by
  cases h with
  | @expr e => exact Violation.oneLine_message (e.oneLine_render hn hks)
  | ident name =>
    cases (hn : Expr.Spelled ks _)
    exact Violation.oneLine_message (hks.oneLine_identifier List.mem_cons_self)
  | field object name =>
    cases (hn : Expr.Spelled ks _)
    simp only [oneLiners_append_iff, oneLiners_cons_iff] at hks
    exact Violation.oneLine_message hks.2.2.1
  | call receiver name =>
    cases (hn : Expr.Spelled ks _)
    simp only [oneLiners_append_iff, oneLiners_cons_iff] at hks
    exact Violation.oneLine_message hks.2.2.1
  | create name =>
    cases (hn : Expr.Spelled ks _)
    simp only [oneLiners_append_iff, oneLiners_cons_iff] at hks
    exact Violation.oneLine_message hks.2.1
  | type name =>
    cases (hn : WrittenType.Spelled ks _)
    exact Violation.oneLine_message (hks.oneLine_identifier List.mem_cons_self)
  | declarator d =>
    cases (hn : Declarator.Spelled ks d) <;>
      exact Violation.oneLine_message (hks.oneLine_identifier List.mem_cons_self)
  | @stmt s => exact Violation.oneLine_message (s.oneLine_render hn hks)
  | name id | parent id =>
    obtain rfl : ks = [.identifier id.name] := hn
    exact Violation.oneLine_message (hks.oneLine_identifier List.mem_cons_self)
  | member what hname =>
    exact Violation.oneLine_message (Member.Spelled.oneLine_name hn hks hname)
  | misnamed m => exact Violation.oneLine_message (Member.Spelled.oneLine hn hks)
  | @init decl span d rule _ _ =>
    have hrender : OneLine (Member.attribute decl span).render := Member.Spelled.oneLine hn hks
    exact Violation.oneLine_message hrender

/-! ## Verdicts -/

private theorem Span.oneLine_text (span : Span) : OneLine span.text :=
  ((oneLine_nat span.start).append (by decide)).append (oneLine_nat span.stop)

/-- A lexical failure is one line just if its message is. -/
theorem Failure.oneLine_lexical_iff {message : String} {span : Span} :
    OneLine (Failure.lexical message span).text ↔ OneLine message := by
  unfold Failure.text
  rw [oneLine_append_iff, oneLine_append_iff, oneLine_append_iff]
  exact ⟨fun h => h.2, fun h => ⟨⟨⟨by decide, span.oneLine_text⟩, by decide⟩, h⟩⟩

private theorem Failure.oneLine_grammar {message : String} (h : OneLine message) (span : Span) :
    OneLine (Failure.grammar message span).text := by
  unfold Failure.text
  exact ((OneLine.append (by decide) span.oneLine_text).append (by decide)).append h

/-- The verdict on a text that can be split into tokens is one line. -/
theorem oneLine_verdict_of_tokenize {source : String} {ts : List Token}
    (h : tokenize source = .ok ts) : OneLine (verdict (checkSource source)) := by
  cases hcheck : checkSource source with
  | ok => exact (by decide : OneLine passedText)
  | error failure =>
    rcases failure_of_checkSource hcheck with ⟨e, he, -⟩ | ⟨us, hus, ⟨e, he, rfl⟩ | hviolation⟩
    · rw [h] at he
      cases he
    · have hkinds := (scanned_of_tokenize hus).1.oneLiners
      exact Failure.oneLine_grammar ((Program.blames_of_ofTokens he).cites.oneLine hkinds) e.span
    · obtain ⟨p, v, -, -, rfl⟩ := hviolation
      by_cases hv : v = .noEntryPoint
      · subst hv
        exact (by decide : OneLine Violation.noEntryPoint.message)
      · obtain ⟨vs, n, hvs, ⟨ws, hws, hstands⟩, hblamed⟩ := exists_blamed_of_checkSource hcheck hv
        have hkinds : OneLiners (ws.map Token.kind) := fun k hk =>
          hvs.oneLiners k ((hws.map Token.kind).subset hk)
        exact hblamed.oneLine hstands.spelled hkinds

/-- A source text with a lexical error fails with that error. -/
theorem checkSource_of_lexical {source : String} {e : LexicalError}
    (h : tokenize source = .error e) : checkSource source = .error (.ofLexical e) := by
  rw [checkSource, parseSource, scanSource, h]
  rfl

/-- Text behind does not change the first character. -/
theorem head?_append {a b : String} {c : Char} (h : a.toList.head? = some c) :
    (a ++ b).toList.head? = some c := by
  rw [String.toList_append, List.head?_append, h]
  rfl

/-- No message of a violation starts as the verdict on a program that passes does. -/
theorem Violation.exists_head (v : Violation) :
    ∃ c, v.message.toList.head? = some c ∧ c ≠ 'S' := by
  unfold Violation.message
  cases v with
  | noEntryPoint => exact ⟨'N', rfl, by decide⟩
  | broken rule subject span =>
    cases rule with
    | redeclared what =>
      exact ⟨'R', head?_append (head?_append (head?_append (head?_append rfl))), by decide⟩
    | _ => exact ⟨_, head?_append (head?_append (head?_append rfl)), by decide⟩

/-- No failure starts like the verdict on a program that passes. -/
theorem Failure.text_ne_passedText (failure : Failure) : failure.text ≠ passedText := by
  obtain ⟨c, hc, hne⟩ : ∃ c, failure.text.toList.head? = some c ∧ c ≠ 'S' := by
    unfold Failure.text
    cases failure with
    | lexical => exact ⟨'L', head?_append (head?_append (head?_append rfl)), by decide⟩
    | grammar => exact ⟨'P', head?_append (head?_append (head?_append rfl)), by decide⟩
    | violation v => exact v.exists_head
    | unreadable => exact ⟨'I', head?_append rfl, by decide⟩
  intro h
  rw [h] at hc
  exact hne (Option.some.inj hc).symm

/-- The verdict on a source text is one line, unless the text ends with a comment of several lines
that is never closed, which the verdict quotes. It says that the check is passed exactly if it
is. -/
theorem verdict_one_line (source : String) :
    ('\n' ∈ (verdict (checkSource source)).toList ↔
      ∃ comment span, tokenize source = .error ⟨.unexpected comment, span⟩ ∧
        ['/', '*'] <+: comment.toList ∧ comment.toList <:+ source.toList ∧
        '\n' ∈ comment.toList) ∧
    (verdict (checkSource source) = passedText ↔ checkSource source = .ok ()) := by
  constructor
  · cases htokens : tokenize source with
    | ok ts =>
      refine ⟨fun h => absurd h (oneLine_verdict_of_tokenize htokens), ?_⟩
      rintro ⟨_, _, ⟨⟩, -⟩
    | error e =>
      have hline : OneLine (verdict (checkSource source)) ↔ OneLine e.fault.message := by
        rw [checkSource_of_lexical htokens]
        exact Failure.oneLine_lexical_iff
      constructor
      · intro h
        have hmessage : ¬ OneLine e.fault.message := fun hone => hline.mpr hone h
        obtain ⟨comment, hfault, hstart, hend⟩ := (oneLine_of_lexical htokens).resolve_left hmessage
        rw [hfault, LexicalFault.oneLine_unexpected_iff] at hmessage
        refine ⟨comment, e.span, ?_, hstart, hend, not_not.mp hmessage⟩
        rw [← hfault]
      · rintro ⟨comment, span, he, -, -, hfeed⟩
        obtain rfl := Except.error.inj he
        by_contra hone
        exact LexicalFault.oneLine_unexpected_iff.mp (hline.mp hone) hfeed
  · cases hcheck : checkSource source with
    | ok => exact ⟨fun _ => rfl, fun _ => rfl⟩
    | error failure => exact ⟨fun h => absurd h failure.text_ne_passedText, nofun⟩

/-- A comment that is never closed breaks the line of the verdict. -/
theorem openComment_breaks_line :
    verdict (checkSource "/*\n") = "Lexer error at 0..3: unexpected character '/*\n'" ∧
      '\n' ∈ (verdict (checkSource "/*\n")).toList := by
  decide +kernel

end ClassCheck
