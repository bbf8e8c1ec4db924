import ClassCheck.Proofs.Nodes
import ClassCheck.Proofs.ParsedSpelling

/-!
# What is parsed stands where it was read

A parser that succeeds yields a node that stands in the tokens it consumed, and one that fails
points at the end of the tokens or at some of the tokens it was given, and quotes nothing but these
tokens. All this is carried through the parsers together, by one rule for each way that parsers are
put together; that the consumed tokens also spell the node is known already and only added.
-/

namespace ClassCheck

open Token

/-- What is asked for is no name or literal of a certain text. -/
def Expectation.Textless : Expectation → Prop
  | .token kind => kind.text? = none
  | _ => True

/-- What a fault quotes is one of the tokens, or a character of a string among them. -/
def SyntaxFault.Cites (ks : List TokenKind) : SyntaxFault → Prop
  | .expected what found => what.Textless ∧ (found = .eof ∨ found ∈ ks)
  | .integerRange text => .integer text ∈ ks
  | .invalidFloat text => .float text ∈ ks
  | .unknownEscape c => ∃ text, .string text ∈ ks ∧ c ∈ text.toList
  | _ => True

/-- There is more to quote from among more tokens. -/
theorem SyntaxFault.Cites.mono {ks ks' : List TokenKind} {fault : SyntaxFault}
    (h : fault.Cites ks) (hsub : ks ⊆ ks') : fault.Cites ks' := by
  cases fault with
  | expected what found => exact ⟨h.1, h.2.imp_right fun hfound => hsub hfound⟩
  | integerRange text | invalidFloat text => exact hsub h
  | unknownEscape c =>
    obtain ⟨text, htext, hc⟩ := h
    exact ⟨text, hsub htext, hc⟩
  | _ => trivial

namespace Cursor

/-- What a cursor has come over is where the tokens ahead of it started. -/
theorem Reaches.starts {o c : Cursor} {us : List Token} (h : o.Reaches us c) :
    us <+: o.ahead := ⟨c.ahead, h.ahead.symm⟩

/-- A place is the end of the tokens ahead, or some of them. -/
def Points (o : Cursor) (span : Span) : Prop :=
  span = o.stop ∨ ∃ us, us ≠ [] ∧ us <:+: o.ahead ∧ Spans us span

/-- The token ahead is a place to point at. -/
theorem points_current (c : Cursor) : c.Points c.current.span := by
  by_cases h : c.current.kind = .eof
  · rw [current_of_eof h]
    exact .inl rfl
  · refine .inr ⟨[c.current], List.cons_ne_nil _ _, ⟨[], c.advance.ahead, ?_⟩, spans_token _⟩
    exact (ahead_of_ne_eof h).symm

/-- A place further on is a place from the start. -/
theorem Points.of_reaches {o c : Cursor} {us : List Token} {span : Span} (h : c.Points span)
    (hc : o.Reaches us c) : o.Points span := by
  refine h.imp (fun hstop => hstop.trans hc.stop_eq) ?_
  rintro ⟨vs, hne, hvs, hspans⟩
  exact ⟨vs, hne, hvs.trans ⟨us, [], by rw [hc.ahead, List.append_nil]⟩, hspans⟩

/-- A syntax error stands at a place of the tokens ahead and quotes nothing else. -/
structure Blames (o : Cursor) (e : SyntaxError) : Prop where
  /-- It stands at the end or at some of the tokens. -/
  points : o.Points e.span
  /-- What it quotes are tokens. -/
  cites : e.fault.Cites o.kinds

private theorem Blames.of_reaches {o c : Cursor} {us : List Token} {e : SyntaxError}
    (h : c.Blames e) (hc : o.Reaches us c) : o.Blames e := by
  refine ⟨h.points.of_reaches hc, h.cites.mono ?_⟩
  rw [hc.kinds]
  exact List.subset_append_right _ _

/-- The token ahead may be blamed for not being what was asked for. -/
theorem blames_current (c : Cursor) {what : Expectation} (hwhat : what.Textless) :
    c.Blames ⟨.expected what c.current.kind, c.current.span⟩ := by
  refine ⟨c.points_current, hwhat, ?_⟩
  by_cases h : c.current.kind = .eof
  · exact .inl h
  · refine .inr ?_
    rw [kinds, ahead_of_ne_eof h]
    exact List.mem_cons_self

/-- A parser has stopped at a place that the cursor comes to, with an error in the tokens ahead. -/
structure Rejects (o : Cursor) (r : Rejection) : Prop where
  /-- The error stands in the tokens. -/
  blames : o.Blames r.error
  /-- The cursor has moved there. -/
  reached : ∃ us, o.Reaches us r.cursor

private theorem Rejects.of_reaches {o c : Cursor} {us : List Token} {r : Rejection}
    (h : c.Rejects r) (hc : o.Reaches us c) : o.Rejects r := by
  obtain ⟨vs, hvs⟩ := h.reached
  exact ⟨h.blames.of_reaches hc, us ++ vs, hc.trans hvs⟩

end Cursor

namespace Parser

/-- Behind some of the tokens of a cursor, the parser consumes more of them and yields a value that
is related to all that are behind then, or it stops at one of them with an error in the tokens. -/
def Tracks {α : Type} (o : Cursor) (pre : List Token) (p : Parser α)
    (Q : List Token → α → Prop) : Prop :=
  ∀ c, o.Reaches pre c →
    (∀ a c', p c = .ok (a, c') → ∃ us, o.Reaches us c' ∧ Q us a) ∧
    ∀ r, p c = .error r → o.Rejects r

/-- Wherever the parser starts, its value is related to the tokens that it consumes. -/
def Places {α : Type} (p : Parser α) (Q : List Token → α → Prop) : Prop :=
  ∀ o, Tracks o [] p Q

section

variable {α β : Type} {o : Cursor} {pre : List Token} {Q : List Token → α → Prop}
  {T : List Token → β → Prop}

/-- A parser may be followed with less in mind. -/
theorem Tracks.mono {p : Parser α} (h : Tracks o pre p Q) {Q' : List Token → α → Prop}
    (hQ : ∀ us a, Q us a → Q' us a) : Tracks o pre p Q' := by
  intro c hc
  obtain ⟨hok, herror⟩ := h c hc
  refine ⟨fun a c' hp => ?_, herror⟩
  obtain ⟨us, hus, ha⟩ := hok a c' hp
  exact ⟨us, hus, hQ us a ha⟩

/-- A value is yielded behind the tokens before it. -/
theorem tracks_pure {a : α} (h : pre <+: o.ahead → Q pre a) : Tracks o pre (pure a) Q := by
  intro c hc
  constructor
  · rintro _ _ ⟨⟩
    exact ⟨pre, hc, h hc.starts⟩
  · rintro e ⟨⟩

/-- A failure has to point at the tokens and may quote nothing else. -/
theorem tracks_fail {fault : SyntaxFault} {span : Span} (hspan : o.Points span)
    (hfault : fault.Cites o.kinds) : Tracks o pre (fail fault span) Q := by
  intro c hc
  refine ⟨nofun, ?_⟩
  rintro _ ⟨⟩
  exact ⟨⟨hspan, hfault⟩, pre, hc⟩

/-- Where something else is asked for, the token ahead is all that is quoted. -/
theorem tracks_failExpected {what : Expectation} (hwhat : what.Textless) :
    Tracks o pre (failExpected what) Q := by
  intro c hc
  refine ⟨nofun, ?_⟩
  rintro _ ⟨⟩
  exact ⟨(c.blames_current hwhat).of_reaches hc, pre, hc⟩

/-- A used-up bound quotes nothing. -/
theorem tracks_exhausted : Tracks o pre (exhausted : Parser α) Q := by
  intro c hc
  refine ⟨nofun, ?_⟩
  rintro _ ⟨⟩
  exact ⟨⟨c.points_current.of_reaches hc, trivial⟩, pre, hc⟩

/-- The second parser starts where the first one stopped. -/
theorem Tracks.bind {p : Parser α} {f : α → Parser β} (hp : Tracks o pre p Q)
    (hf : ∀ a us, us <+: o.ahead → Q us a → Tracks o us (f a) T) : Tracks o pre (p >>= f) T := by
  intro c hc
  obtain ⟨hok, herror⟩ := hp c hc
  rw [bind_apply]
  cases hpc : p c with
  | error r =>
    refine ⟨nofun, ?_⟩
    rintro _ ⟨⟩
    exact herror r hpc
  | ok r =>
    obtain ⟨us, hus, ha⟩ := hok r.1 r.2 hpc
    exact hf r.1 us hus.starts ha r.2 hus

/-- A parser starts behind tokens that it does not know of. -/
theorem Places.tracks {p : Parser α} (h : p.Places Q) :
    Tracks o pre p fun us a => ∃ vs, us = pre ++ vs ∧ Q vs a := by
  intro c hc
  obtain ⟨hok, herror⟩ := h c c c.reaches_self
  refine ⟨fun a c' hp => ?_, fun r hp => (herror r hp).of_reaches hc⟩
  obtain ⟨vs, hvs, ha⟩ := hok a c' hp
  exact ⟨pre ++ vs, hc.trans hvs, vs, rfl, ha⟩

/-- What the first parser consumes comes before what the second one does. -/
theorem Places.bind {p : Parser α} {f : α → Parser β} (hp : p.Places Q)
    (hf : ∀ a vs, pre ++ vs <+: o.ahead → Q vs a → Tracks o (pre ++ vs) (f a) T) :
    Tracks o pre (p >>= f) T := by
  refine hp.tracks.bind ?_
  rintro a _ hus ⟨vs, rfl, ha⟩
  exact hf a vs hus ha

private theorem Places.mono {p : Parser α} (h : p.Places Q) {Q' : List Token → α → Prop}
    (hQ : ∀ us a, Q us a → Q' us a) : p.Places Q' :=
  fun o => (h o).mono hQ

private theorem Tracks.ite {p q : Parser α} {b : Prop} [Decidable b] (hp : Tracks o pre p Q)
    (hq : Tracks o pre q Q) : Tracks o pre (if b then p else q) Q := by
  split
  · exact hp
  · exact hq

/-! ## What was read -/

/-- What is known of the kinds of the tokens that a parser reads is added to what is known of the
tokens. -/
theorem Tracks.and_reads {p : Parser α} {S : List TokenKind → α → List TokenKind → Prop}
    (h : Tracks o pre p Q) (hp : p.Reads S) :
    Tracks o pre p fun us a =>
      Q us a ∧ ∃ vs rest, us = pre ++ vs ∧ S (vs.map Token.kind) a rest := by
  intro c hc
  obtain ⟨hok, herror⟩ := h c hc
  refine ⟨fun a c' hpc => ?_, herror⟩
  obtain ⟨us, hus, ha⟩ := hok a c' hpc
  obtain ⟨vs, hvs, hS⟩ := hp c a c' hpc
  -- The same tokens stand between the two cursors.
  have hsame : us = pre ++ vs :=
    List.append_cancel_right (hus.split.symm.trans (hc.trans hvs).split)
  exact ⟨us, hus, ha, vs, c'.kinds, hsame, hS⟩

/-- That the consumed tokens spell the value is added to where it stands. -/
theorem Places.and_reads {p : Parser α} {S : List TokenKind → α → Prop} (h : p.Places Q)
    (hp : p.Reads fun us a _ => S us a) :
    p.Places fun us a => Q us a ∧ S (us.map Token.kind) a := by
  intro o
  refine ((h o).and_reads hp).mono ?_
  rintro _ a ⟨ha, vs, -, rfl, hS⟩
  exact ⟨ha, hS⟩

/-- What is known of the tokens that a parser reads is known of their kinds. -/
theorem Places.reads {p : Parser α} {S : List TokenKind → α → Prop} (h : p.Places Q)
    (hS : ∀ us a, Q us a → S (us.map Token.kind) a) : p.Reads fun us a _ => S us a := by
  intro c a c' hp
  obtain ⟨us, hus, ha⟩ := (h c c c.reaches_self).1 a c' hp
  exact ⟨us, hus, hS us a ha⟩

/-! ## Single tokens -/

/-- The token ahead, behind some of the tokens of a cursor. -/
def Ahead (o : Cursor) (pre : List Token) (t : Token) : Prop :=
  o.Points t.span ∧ (t.kind = .eof ∧ o.ahead = pre ∨ ∃ rest, o.ahead = pre ++ t :: rest)

/-- A token ahead that is no end of file is one of the tokens. -/
theorem Ahead.exists_rest {t : Token} (h : Ahead o pre t) (hkind : t.kind ≠ .eof) :
    ∃ rest, o.ahead = pre ++ t :: rest := h.2.resolve_left fun heof => hkind heof.1

private theorem Ahead.mem_kinds {t : Token} (h : Ahead o pre t) (hkind : t.kind ≠ .eof) :
    t.kind ∈ o.kinds := by
  obtain ⟨rest, hrest⟩ := h.exists_rest hkind
  rw [Cursor.kinds, hrest]
  exact List.mem_map_of_mem (List.mem_append_right _ List.mem_cons_self)

/-- The token ahead of a cursor is the first of those that are consumed. -/
theorem Ahead.first {t : Token} (h : Ahead o [] t) {us : List Token} (hne : us ≠ [])
    (hus : us <+: o.ahead) : [t] <+: us := by
  obtain ⟨u, us, rfl⟩ := List.exists_cons_of_ne_nil hne
  rcases h.2 with ⟨-, hnil⟩ | ⟨rest, hrest⟩
  · rw [hnil, List.prefix_nil] at hus
    cases hus
  · rw [hrest] at hus
    obtain ⟨rfl, -⟩ := List.cons_prefix_cons.mp hus
    exact ⟨us, rfl⟩

/-- Looking at the token ahead moves over nothing. -/
theorem tracks_peek {f : Token → Parser α} (h : ∀ t, Ahead o pre t → Tracks o pre (f t) Q) :
    Tracks o pre (peek >>= f) Q := by
  intro c hc
  refine h c.current ⟨c.points_current.of_reaches hc, ?_⟩ c hc
  by_cases hkind : c.current.kind = .eof
  · refine .inl ⟨hkind, ?_⟩
    rw [hc.ahead, Cursor.ahead_of_eof hkind, List.append_nil]
  · refine .inr ⟨c.advance.ahead, ?_⟩
    rw [hc.ahead, Cursor.ahead_of_ne_eof hkind]

/-- The token that was looked at is consumed. -/
theorem tracks_advance {t : Token} (ht : Ahead o pre t) (hkind : t.kind ≠ .eof)
    {f : Token → Parser α} (h : Tracks o (pre ++ [t]) (f t) Q) :
    Tracks o pre (advance >>= f) Q := by
  intro c hc
  obtain ⟨rest, hrest⟩ := ht.exists_rest hkind
  have hahead : c.ahead = t :: rest := List.append_cancel_left (hc.ahead.symm.trans hrest)
  obtain ⟨rfl, -⟩ := Cursor.current_of_ahead hahead
  exact h c.advance (hc.trans (Cursor.reaches_advance hkind))

/-- Whatever token is ahead is consumed. -/
theorem tracks_take {f : Token → Parser α} (hend : Tracks o pre (f ⟨.eof, o.stop⟩) Q)
    (htake : ∀ t, o.Points t.span → t.kind ∈ o.kinds → Tracks o (pre ++ [t]) (f t) Q) :
    Tracks o pre (advance >>= f) Q := by
  intro c hc
  rw [bind_apply, advance]
  by_cases hkind : c.current.kind = .eof
  · rw [Cursor.current_of_eof hkind, hc.stop_eq, Cursor.advance_of_eof hkind]
    exact hend c hc
  · have hmem : c.current.kind ∈ o.kinds := by
      rw [hc.kinds, Cursor.kinds, Cursor.ahead_of_ne_eof hkind]
      exact List.mem_append_right _ List.mem_cons_self
    exact htake c.current (c.points_current.of_reaches hc) hmem c.advance
      (hc.trans (Cursor.reaches_advance hkind))

/-- A token that is asked for is consumed, or the one there is blamed. -/
theorem tracks_expect {kind : TokenKind} (hkind : kind ≠ .eof) (htext : kind.text? = none)
    {f : Span → Parser α}
    (h : ∀ t, t.kind = kind → Tracks o (pre ++ [t]) (f t.span) Q) :
    Tracks o pre (expect kind >>= f) Q := by
  have hexpect : Tracks o pre (expect kind) fun us span =>
      ∃ t, t.kind = kind ∧ us = pre ++ [t] ∧ span = t.span := by
    refine tracks_peek fun t ht => ?_
    split
    · rename_i hkind'
      exact tracks_advance ht (hkind' ▸ hkind) (tracks_pure fun _ => ⟨t, hkind', rfl, rfl⟩)
    · exact tracks_failExpected htext
  refine hexpect.bind ?_
  rintro _ _ - ⟨t, ht, rfl, rfl⟩
  exact h t ht

private theorem tracks_symbol {sign : Symbol} {f : Span → Parser α}
    (h : ∀ t, t.kind = .symbol sign → Tracks o (pre ++ [t]) (f t.span) Q) :
    Tracks o pre (symbol sign >>= f) Q :=
  tracks_expect (by simp) rfl h

private theorem tracks_keyword {word : Keyword} {f : Span → Parser α}
    (h : ∀ t, t.kind = .keyword word → Tracks o (pre ++ [t]) (f t.span) Q) :
    Tracks o pre (keyword word >>= f) Q :=
  tracks_expect (by simp) rfl h

/-- A token that may stand here: either it is consumed, or nothing is. -/
theorem tracks_accept {kind : TokenKind} (hkind : kind ≠ .eof) {f : Bool → Parser α}
    (htrue : ∀ t, t.kind = kind → Tracks o (pre ++ [t]) (f true) Q)
    (hfalse : Tracks o pre (f false) Q) : Tracks o pre (accept kind >>= f) Q := by
  have haccept : Tracks o pre (accept kind) fun us b =>
      (∃ t, t.kind = kind ∧ us = pre ++ [t] ∧ b = true) ∨ us = pre ∧ b = false := by
    refine tracks_peek fun t ht => ?_
    split
    · rename_i hkind'
      exact tracks_advance ht (hkind' ▸ hkind) (tracks_pure fun _ => .inl ⟨t, hkind', rfl, rfl⟩)
    · exact tracks_pure fun _ => .inr ⟨rfl, rfl⟩
  refine haccept.bind ?_
  rintro _ _ - (⟨t, ht, rfl, rfl⟩ | ⟨rfl, rfl⟩)
  · exact htrue t ht
  · exact hfalse

private theorem tracks_acceptSymbol {sign : Symbol} {f : Bool → Parser α}
    (htrue : ∀ t, t.kind = .symbol sign → Tracks o (pre ++ [t]) (f true) Q)
    (hfalse : Tracks o pre (f false) Q) : Tracks o pre (acceptSymbol sign >>= f) Q :=
  tracks_accept (by simp) htrue hfalse

private theorem tracks_acceptKeyword {word : Keyword} {f : Bool → Parser α}
    (htrue : ∀ t, t.kind = .keyword word → Tracks o (pre ++ [t]) (f true) Q)
    (hfalse : Tracks o pre (f false) Q) : Tracks o pre (acceptKeyword word >>= f) Q :=
  tracks_accept (by simp) htrue hfalse

/-- The token consumed last is the last of those consumed. -/
theorem tracks_lastSpan (hne : pre ≠ []) {f : Span → Parser α}
    (h : ∀ t, [t] <:+ pre → Tracks o pre (f t.span) Q) : Tracks o pre (lastSpan >>= f) Q := by
  intro c hc
  obtain ⟨front, t, rfl⟩ := (List.eq_nil_or_concat' pre).resolve_left hne
  have hlast : c.last = t.span := by
    rw [hc.last_eq, List.getLast?_concat]
    rfl
  have hstep : (lastSpan >>= f) c = f t.span c := by
    rw [bind_apply, lastSpan, hlast]
  rw [hstep]
  exact h t ⟨front, rfl⟩ c hc

private theorem tracks_peekAll {f : List Token → Parser α} (h : ∀ ahead, Tracks o pre (f ahead) Q) :
    Tracks o pre (peekAll >>= f) Q :=
  fun c hc => h c.tokens c hc

/-- A value that cannot be read is blamed on the token that holds it. -/
theorem tracks_lift {value : Except SyntaxFault α} {span : Span} (hspan : o.Points span)
    (hvalue : ∀ fault, value = .error fault → fault.Cites o.kinds) :
    Tracks o pre (lift value span) fun us _ => us = pre := by
  cases value with
  | ok a => exact tracks_pure fun _ => rfl
  | error fault => exact tracks_fail hspan (hvalue fault rfl)

end

/-! ## Values of literals -/

section

variable {ks : List TokenKind} {text : String} {fault : SyntaxFault}

/-- The fault of an array size quotes nothing. -/
theorem cites_of_sizeValue (h : sizeValue text = .error fault) : fault.Cites ks := by
  unfold sizeValue at h
  split at h
  · cases h
  · cases h
    trivial

/-- The fault of a whole number quotes the number. -/
theorem cites_of_integerValue (hmem : .integer text ∈ ks) (h : integerValue text = .error fault) :
    fault.Cites ks := by
  unfold integerValue at h
  split at h
  · cases h
  · cases h
    exact hmem

/-- So does the fault of a number with a fraction. -/
theorem cites_of_floatValue (hmem : .float text ∈ ks) (h : floatValue text = .error fault) :
    fault.Cites ks := by
  unfold floatValue at h
  split at h
  · cases h
  · cases h
    exact hmem

private theorem error_of_map_eq_error {α β : Type} {f : α → β} {value : Except SyntaxFault α}
    (h : value.map f = .error fault) : value = .error fault := by
  cases value with
  | ok a => cases h
  | error fault' => exact congrArg Except.error (Except.error.inj h)

/-- An escape that cannot be resolved stands in the text. -/
theorem fault_of_unescape {cs : List Char} (h : unescape cs = .error fault) :
    fault = .danglingEscape ∨ ∃ c ∈ cs, fault = .unknownEscape c := by
  fun_induction unescape cs with
  | case1 => cases h
  | case2 =>
    cases h
    exact .inl rfl
  | case3 c cs d hd ih =>
    refine (ih (error_of_map_eq_error h)).imp_right ?_
    rintro ⟨c', hc', hfault⟩
    exact ⟨c', List.mem_cons_of_mem _ (List.mem_cons_of_mem _ hc'), hfault⟩
  | case4 c cs hd =>
    cases h
    exact .inr ⟨c, List.mem_cons_of_mem _ List.mem_cons_self, rfl⟩
  | case5 c cs _ _ ih =>
    refine (ih (error_of_map_eq_error h)).imp_right ?_
    rintro ⟨c', hc', hfault⟩
    exact ⟨c', List.mem_cons_of_mem _ hc', hfault⟩

/-- What stands between quotes stands in the text. -/
theorem mem_of_unquote? {cs body : List Char} (h : unquote? cs = some body) : body ⊆ cs := by
  unfold unquote? at h
  split at h
  · split at h
    · cases h
      exact List.subset_cons_of_subset _ (List.dropLast_subset _)
    · cases h
  · cases h

/-- The fault of a string quotes a character of it. -/
theorem cites_of_stringValue (hmem : .string text ∈ ks) (h : stringValue text = .error fault) :
    fault.Cites ks := by
  unfold stringValue at h
  split at h
  · rename_i body hbody
    rcases fault_of_unescape (error_of_map_eq_error h) with rfl | ⟨c, hc, rfl⟩
    · trivial
    · exact ⟨text, hmem, mem_of_unquote? hbody hc⟩
  · cases h
    trivial

end

/-! ## Sequences -/

section

variable {α : Type} {R : List Token → α → Prop} {item : Parser α} {T : List Token → List α → Prop}

/-- Items with a sign between them are placed one after another. -/
theorem places_separated (h : item.Places R) (hone : ∀ us a, R us a → T us [a])
    (hmore : ∀ us a t vs as, R us a → T vs as → T (us ++ [t] ++ vs) (a :: as)) (sign : Symbol)
    (bound : Nat) : (separated sign item bound).Places T := by
  induction bound with
  | zero => exact fun _ => tracks_exhausted
  | succ bound ih =>
    intro o
    refine h.bind fun a us _ ha => tracks_acceptSymbol (fun t _ => ?_) ?_
    · exact ih.bind fun as vs _ hvs => tracks_pure fun _ => hmore us a t vs as ha hvs
    · exact tracks_pure fun _ => hone us a ha

/-- So are items up to a certain token. -/
theorem places_manyUntil (h : item.Places R) (hnil : T [] [])
    (hcons : ∀ us a vs as, R us a → T vs as → T (us ++ vs) (a :: as))
    (ends : TokenKind → Bool) (bound : Nat) : (manyUntil ends item bound).Places T := by
  induction bound with
  | zero => exact fun _ => tracks_exhausted
  | succ bound ih =>
    intro o
    refine tracks_peek fun t _ => .ite (tracks_pure fun _ => hnil) ?_
    exact h.bind fun a us _ ha => ih.bind fun as vs _ hvs => tracks_pure fun _ =>
      hcons us a vs as ha hvs

end

end Parser

/-! ## Nodes -/

namespace Node

/-- A node has its span from a row of tokens, and the nodes below it stand among them. -/
structure Laid (us : List Token) (n : Node) : Prop where
  /-- The span runs from the first token to the last. -/
  spans : Spans us n.span
  /-- The nodes right below stand one behind the other. -/
  children : Row Stands us n.children
  /-- Types of parameters stand anywhere. -/
  asides : Scattered Stands us n.asides

/-- What is laid out in tokens that spell it stands there. -/
theorem Laid.stands {us : List Token} {n : Node} (h : n.Laid us)
    (hspelled : n.Spelled (us.map Token.kind)) : n.Stands us :=
  .mk hspelled h.spans h.children h.asides

/-- Tokens behind a row may be left over. -/
theorem Row.skip {P : List Token → Node → Prop} {us : List Token} {ns : List Node}
    (h : Row P us ns) (vs : List Token) : Row P (us ++ vs) ns := by
  induction vs generalizing us with
  | nil => rwa [List.append_nil]
  | cons v vs ih =>
    rw [List.append_cons]
    exact ih (h.token v)

private theorem row_skip (P : List Token → Node → Prop) (us : List Token) :
    Row P us [] := Row.nil.skip us

private theorem row_one {P : List Token → Node → Prop} {us : List Token} {n : Node} (h : P us n) :
    Row P us [n] := Row.nil.node h

section

variable {α : Type} {node : α → Node} {item : Parser α}
  (h : item.Places fun us a => (node a).Stands us)

include h

private theorem row_separated (sign : Symbol) (bound : Nat) :
    (Parser.separated sign item bound).Places fun us as =>
      us ≠ [] ∧ Row Stands us (as.map node) := by
  refine Parser.places_separated h (fun us a ha => ⟨ha.ne_nil, row_one ha⟩) ?_ sign bound
  rintro us a t vs as ha ⟨-, hvs⟩
  exact ⟨by simp, ((row_one ha).token t).append hvs⟩

private theorem row_manyUntil (ends : TokenKind → Bool) (bound : Nat) :
    (Parser.manyUntil ends item bound).Places fun us as => Row Stands us (as.map node) :=
  Parser.places_manyUntil h .nil (fun _ _ _ _ ha hvs => (row_one ha).append hvs) ends bound

end

end Node

namespace Parser

open Node

/-- A name stands in its token. -/
theorem places_identifier : identifier.Places fun us id => (Node.name id).Stands us := by
  intro o
  refine tracks_peek fun t ht => ?_
  split
  · rename_i name hname
    refine tracks_advance ht (by simp [hname]) (tracks_pure fun _ => ?_)
    refine .mk ?_ (spans_token t) (row_skip _ _) (.nil _)
    rw [List.nil_append, List.map_singleton, hname]
    rfl
  · exact tracks_failExpected trivial

/-! ## Types -/

/-- The inside of a written type stands in its token and is no reference. -/
theorem places_baseType : baseType.Places fun us type =>
    (Node.type type).Stands us ∧ type.isReference = false := by
  have hlaid : baseType.Places fun us type => (Node.type type).Laid us := by
    intro o
    refine tracks_peek fun t ht => ?_
    unfold baseType?
    split
    · rename_i type htype
      split at htype <;> cases htype <;>
        exact tracks_advance ht (by simp [*]) (tracks_pure fun _ =>
          ⟨spans_token t, row_skip _ _, .nil _⟩)
    · exact tracks_failExpected trivial
  exact (hlaid.and_reads reads_baseType).mono fun _ _ h => ⟨h.1.stands h.2.1, h.2.2⟩

/-- An array size is the value of the token that holds it. -/
theorem places_arraySize : arraySize.Places fun us size =>
    ∃ text, us.map Token.kind = [.integer text] ∧ sizeValue text = .ok size := by
  have hplaces : arraySize.Places fun _ _ => True := by
    intro o
    refine tracks_take (tracks_fail (.inl rfl) ⟨trivial, .inl rfl⟩) fun t ht hmem => ?_
    split
    · exact (tracks_lift ht fun _ => cites_of_sizeValue).mono fun _ _ _ => trivial
    · exact tracks_fail ht ⟨trivial, .inr hmem⟩
  exact (hplaces.and_reads reads_arraySize).mono fun _ _ h => h.2

/-- With each array size the type stands in more tokens. -/
theorem tracks_arraySizes {o : Cursor} {us : List Token} (bound : Nat) {type : WrittenType}
    (htype : (Node.type type).Stands us) (href : type.isReference = false) :
    Tracks o us (arraySizes bound type) fun us type =>
      (Node.type type).Stands us ∧ type.isReference = false := by
  induction bound generalizing type us with
  | zero => exact tracks_exhausted
  | succ bound ih =>
    refine tracks_acceptSymbol (fun bracket hopen => places_arraySize.bind ?_)
      (tracks_pure fun _ => ⟨htype, href⟩)
    rintro size vs - ⟨text, hvs, hvalue⟩
    refine tracks_symbol fun close hclose => ih ?_ rfl
    refine .mk ?_ ?_ (((row_one htype).token bracket).skip vs |>.token close) (.nil _)
    · have hspelled : (WrittenType.array type size (type.span.merge close.span)).Spelled _ :=
        .array href htype.spelled hvalue
      simpa [Node.Spelled, hopen, hvs, hclose] using hspelled
    · exact htype.spans.merge (spans_token close) htype.ne_nil (by simp) (by simp)
        (List.suffix_append _ _)

/-- A written type stands in its tokens. -/
theorem places_writtenType (bound : Nat) :
    (writtenType bound).Places fun us type => (Node.type type).Stands us := by
  intro o
  refine places_baseType.bind fun base us _ hbase =>
    (tracks_arraySizes bound hbase.1 hbase.2).bind ?_
  rintro type us - ⟨htype, href⟩
  refine tracks_acceptSymbol (fun mark hmark => tracks_lastSpan (by simp) ?_)
    (tracks_pure fun _ => htype)
  intro t ht
  refine tracks_pure fun _ => .mk ?_ ?_ ((row_one htype).token mark) (.nil _)
  · have hspelled : (WrittenType.reference type (type.span.merge t.span)).Spelled _ :=
      .reference href htype.spelled
    simpa [Node.Spelled, hmark] using hspelled
  · exact htype.spans.merge (spans_token t) htype.ne_nil (by simp) (by simp) ht

/-! ## Expressions -/

/-- An expression is laid out by its span and the expressions in it. -/
theorem laid_expr {us : List Token} {e : Expr} (hspans : Spans us e.span)
    (hchildren : Row Stands us (e.children.map .expr)) : (Node.expr e).Laid us :=
  ⟨hspans, hchildren, .nil us⟩

section

variable {nested : Parser Expr} (hn : nested.Places fun us e => (Node.expr e).Stands us)
  (bound : Nat)

include hn

/-- Arguments stand in a row. -/
theorem places_arguments : (arguments nested bound).Places fun us args =>
    us ≠ [] ∧ Row Stands us (args.map .expr) := by
  intro o
  refine tracks_symbol fun t _ => tracks_peek fun ahead _ => ?_
  have hclose : ∀ (args : List Expr) (us : List Token), Row Stands us (args.map .expr) →
      Tracks o us (do
        let _ ← symbol .rparen
        pure args) fun us args => us ≠ [] ∧ Row Stands us (args.map .expr) := by
    intro args us hrow
    exact tracks_symbol fun close _ => tracks_pure fun _ => ⟨by simp, hrow.token close⟩
  refine .ite ?_ ?_
  · exact hclose [] [t] (row_skip _ _)
  · refine (row_separated hn .comma bound).bind fun args vs _ hvs => ?_
    exact hclose args _ ((row_skip Stands [t]).append hvs.2)

private theorem tracks_creation {o : Cursor} (start : Token) :
    Tracks o [start] (creation nested bound start.span) fun us e => (Node.expr e).Laid us := by
  refine places_identifier.bind fun name us _ _ => (places_arguments hn bound).bind
    fun args vs _ hargs => tracks_lastSpan (by simp) fun close hclose => tracks_pure fun _ => ?_
  refine laid_expr ?_ ((row_skip Stands ([start] ++ us)).append hargs.2)
  exact (spans_token start).merge (spans_token close) (by simp) (by simp) (by simp) hclose

private theorem tracks_parenthesized {o : Cursor} (start : Token) :
    Tracks o [start] (parenthesized nested start.span) fun us e => (Node.expr e).Laid us := by
  refine hn.bind fun inner us _ hinner => tracks_symbol fun close _ => tracks_pure fun _ => ?_
  refine laid_expr ?_ (((row_skip Stands [start]).node hinner).token close)
  exact (spans_token start).merge (spans_token close) (by simp) (by simp) (by simp)
    (List.suffix_append _ _)

private theorem tracks_arrayElements {o : Cursor} (start : Token) :
    Tracks o [start] (arrayElements nested bound start.span) fun us e =>
      (Node.expr e).Laid us := by
  refine (row_separated hn .comma bound).bind fun elements us _ helements =>
    tracks_symbol fun close _ => tracks_pure fun _ => ?_
  refine laid_expr ?_ (((row_skip Stands [start]).append helements.2).token close)
  exact (spans_token start).merge (spans_token close) (by simp) (by simp) (by simp)
    (List.suffix_append _ _)

/-- A primary expression stands in its tokens and is of the highest level. -/
theorem places_primary : (primary nested bound).Places fun us e =>
    (Node.expr e).Stands us ∧ 8 ≤ e.level := by
  have hlaid : (primary nested bound).Places fun us e => (Node.expr e).Laid us := by
    intro o
    refine tracks_peek fun t ht => ?_
    have hleaf : ∀ e : Expr, e.span = t.span → e.children = [] →
        Tracks o [t] (pure e) fun us e => (Node.expr e).Laid us := by
      intro e hspan hchildren
      refine tracks_pure fun _ => laid_expr (hspan ▸ spans_token t) ?_
      rw [hchildren]
      exact row_skip _ _
    have hvalue : ∀ {β : Type} (value : Except SyntaxFault β) (make : β → Expr),
        (∀ fault, value = .error fault → fault.Cites o.kinds) →
        (∀ b, (make b).span = t.span) → (∀ b, (make b).children = []) →
        Tracks o [t] (lift value t.span >>= fun b => pure (make b)) fun us e =>
          (Node.expr e).Laid us := by
      intro β value make hfault hspan hchildren
      refine (tracks_lift ht.1 hfault).bind ?_
      rintro b _ - rfl
      exact hleaf _ (hspan b) (hchildren b)
    split <;> rename_i hkind
    · have hmem := hkind ▸ ht.mem_kinds (by simp [hkind])
      exact tracks_advance ht (by simp [hkind])
        (hvalue _ _ (fun _ => cites_of_integerValue hmem) (fun _ => rfl) fun _ => rfl)
    · have hmem := hkind ▸ ht.mem_kinds (by simp [hkind])
      exact tracks_advance ht (by simp [hkind])
        (hvalue _ _ (fun _ => cites_of_floatValue hmem) (fun _ => rfl) fun _ => rfl)
    · have hmem := hkind ▸ ht.mem_kinds (by simp [hkind])
      exact tracks_advance ht (by simp [hkind])
        (hvalue _ _ (fun _ => cites_of_stringValue hmem) (fun _ => rfl) fun _ => rfl)
    · exact tracks_advance ht (by simp [hkind]) (hleaf _ rfl rfl)
    · exact tracks_advance ht (by simp [hkind]) (hleaf _ rfl rfl)
    · exact tracks_advance ht (by simp [hkind]) (hleaf _ rfl rfl)
    · exact tracks_advance ht (by simp [hkind]) (hleaf _ rfl rfl)
    · exact tracks_advance ht (by simp [hkind]) (hleaf _ rfl rfl)
    · exact tracks_advance ht (by simp [hkind]) (tracks_creation hn bound t)
    · exact tracks_advance ht (by simp [hkind]) (tracks_parenthesized hn t)
    · exact tracks_advance ht (by simp [hkind]) (tracks_arrayElements hn bound t)
    · exact tracks_failExpected trivial
  exact (hlaid.and_reads (reads_primary (hn.reads fun _ _ h => h.spelled) bound)).mono
    fun _ _ h => ⟨h.1.stands h.2.1, h.2.2⟩

private theorem tracks_memberOf {o : Cursor} {us : List Token} {object : Expr} (dot : Token)
    (hobject : (Node.expr object).Stands us) :
    Tracks o (us ++ [dot]) (memberOf nested bound object) fun us e => (Node.expr e).Laid us := by
  have hrow : Row Stands (us ++ [dot]) [.expr object] := (row_one hobject).token dot
  refine places_identifier.bind fun name vs _ hname => tracks_peek fun ahead _ => .ite ?_ ?_
  · refine (places_arguments hn bound).bind fun args ws _ hargs => tracks_lastSpan (by simp)
      fun close hclose => tracks_pure fun _ => laid_expr ?_ ((hrow.skip vs).append hargs.2)
    exact hobject.spans.merge (spans_token close) hobject.ne_nil (by simp) (by simp) hclose
  · refine tracks_pure fun _ => laid_expr ?_ (hrow.skip vs)
    exact hobject.spans.merge hname.spans hobject.ne_nil hname.ne_nil (by simp)
      (List.suffix_append _ _)

private theorem tracks_elementOf {o : Cursor} {us : List Token} {object : Expr} (bracket : Token)
    (hobject : (Node.expr object).Stands us) :
    Tracks o (us ++ [bracket]) (elementOf nested object) fun us e => (Node.expr e).Laid us := by
  refine hn.bind fun position vs _ hposition => tracks_symbol fun close _ => tracks_pure fun _ => ?_
  refine laid_expr ?_ ((((row_one hobject).token bracket).node hposition).token close)
  exact hobject.spans.merge (spans_token close) hobject.ne_nil (by simp) (by simp)
    (List.suffix_append _ _)

/-- A selection stands in the tokens of its object and its own. -/
theorem tracks_selections {o : Cursor} {us : List Token} (rounds : Nat) {e : Expr}
    (he : (Node.expr e).Stands us) (hlevel : 8 ≤ e.level) :
    Tracks o us (selections nested bound rounds e) fun us e =>
      (Node.expr e).Stands us ∧ 8 ≤ e.level := by
  have hr : nested.Reads fun us e _ => e.Spelled us := hn.reads fun _ _ h => h.spelled
  induction rounds generalizing e us with
  | zero => exact tracks_exhausted
  | succ rounds ih =>
    refine tracks_acceptSymbol (fun dot hdot => ?_)
      (tracks_acceptSymbol (fun bracket hbracket => ?_) (tracks_pure fun _ => ⟨he, hlevel⟩))
    · refine ((tracks_memberOf hn bound dot he).and_reads
        (reads_memberOf hr bound he.spelled hlevel)).bind ?_
      rintro e' _ - ⟨hlaid, vs, -, rfl, hspelled, hlevel'⟩
      refine ih (hlaid.stands ?_) hlevel'
      simpa [Node.Spelled, hdot] using hspelled
    · refine ((tracks_elementOf hn bracket he).and_reads
        (reads_elementOf hr he.spelled hlevel)).bind ?_
      rintro e' _ - ⟨hlaid, vs, -, rfl, hspelled, hlevel'⟩
      refine ih (hlaid.stands ?_) hlevel'
      simpa [Node.Spelled, hbracket] using hspelled

private theorem places_selected : (selected nested bound).Places fun us e =>
    (Node.expr e).Stands us ∧ 8 ≤ e.level :=
  fun _ => (places_primary hn bound).bind fun _ _ _ he => tracks_selections hn bound bound he.1 he.2

/-- A sign in front stands before its operand. -/
theorem places_signed (rounds : Nat) :
    (signed nested bound rounds).Places fun us e => (Node.expr e).Stands us ∧ 7 ≤ e.level := by
  have hselected : (selected nested bound).Places fun us e =>
      (Node.expr e).Stands us ∧ 7 ≤ e.level :=
    (places_selected hn bound).mono fun _ _ h => ⟨h.1, Nat.le_of_succ_le h.2⟩
  induction rounds with
  | zero => exact fun _ => tracks_exhausted
  | succ rounds ih =>
    intro o
    refine tracks_peek fun t ht => ?_
    split
    · rename_i op hop
      have hsign := eq_symbol_of_unaryOp? hop
      refine tracks_advance ht (by simp [hsign]) (ih.bind fun operand us _ hoperand =>
        tracks_pure fun _ => ⟨.mk ?_ ?_ ((row_skip Stands [t]).node hoperand.1) (.nil _), le_rfl⟩)
      · have hspelled : (Expr.unary op operand (t.span.merge operand.span)).Spelled _ :=
          .unary hoperand.2 hoperand.1.spelled
        simpa [Node.Spelled, hsign] using hspelled
      · exact (spans_token t).merge hoperand.1.spans (by simp) hoperand.1.ne_nil (by simp)
          (List.suffix_append _ _)
    · exact hselected o

end

section

variable {level : Level} {n : Nat} (hlevel : level.Holds n) {operand : Parser Expr}
  (hoperand : operand.Places fun us e => (Node.expr e).Stands us ∧ n < e.level)

include hlevel hoperand

/-- An operation stands in the tokens of its operands and the operator between them. -/
theorem tracks_operations {o : Cursor} {us : List Token} (rounds : Nat) {left : Expr}
    (hleft : (Node.expr left).Stands us) (hn : n ≤ left.level) :
    Tracks o us (operations level operand rounds left) fun us e =>
      (Node.expr e).Stands us ∧ n ≤ e.level := by
  induction rounds generalizing left us with
  | zero => exact tracks_exhausted
  | succ rounds ih =>
    refine tracks_peek fun t ht => ?_
    split
    · rename_i op hop
      obtain ⟨hsign, rfl⟩ := (hlevel t.kind op).mp hop
      refine tracks_advance ht (by simp [hsign]) (hoperand.bind fun right vs _ hright => ?_)
      refine ih (.mk ?_ ?_ (((row_one hleft).token t).node hright.1) (.nil _)) le_rfl
      · have hspelled : (Expr.binary op left right (left.span.merge right.span)).Spelled _ :=
          .binary hn hleft.spelled hright.2 hright.1.spelled
        simpa [Node.Spelled, hsign] using hspelled
      · exact hleft.spans.merge hright.1.spans hleft.ne_nil hright.1.ne_nil (by simp)
          (List.suffix_append _ _)
    · exact tracks_pure fun _ => ⟨hleft, hn⟩

private theorem places_leftGrouped (bound : Nat) :
    (leftGrouped level operand bound).Places fun us e =>
      (Node.expr e).Stands us ∧ n ≤ e.level :=
  fun _ => hoperand.bind fun _ _ _ hleft =>
    tracks_operations hlevel hoperand bound hleft.1 (Nat.le_of_lt hleft.2)

end

/-- An expression stands in its tokens. -/
theorem places_expression (bound : Nat) :
    (expression bound).Places fun us e => (Node.expr e).Stands us := by
  induction bound with
  | zero => exact fun _ => tracks_exhausted
  | succ bound ih =>
    have hlayers : (layered (expression bound) (bound + 1)).Places
        fun us e => (Node.expr e).Stands us ∧ 0 ≤ e.level := by
      refine layered_induction
        (P := fun n p => p.Places fun us e => (Node.expr e).Stands us ∧ n ≤ e.level)
        (places_signed ih (bound + 1) (bound + 1)) ?_
      intro level n operand hlevel _ hoperand
      exact places_leftGrouped hlevel hoperand (bound + 1)
    exact hlayers.mono fun _ _ h => h.1

/-! ## Statements -/

/-- A declared name stands with its initial value. -/
theorem places_declarator (bound : Nat) :
    (declarator bound).Places fun us d => (Node.declarator d).Stands us := by
  have hlaid : (declarator bound).Places fun us d => (Node.declarator d).Laid us := by
    intro o
    refine places_identifier.bind fun name us _ hname => tracks_acceptSymbol (fun sign _ => ?_) ?_
    · refine (places_expression bound).bind fun init vs _ hinit => tracks_pure fun _ =>
        ⟨?_, ((row_skip Stands us).token sign).node hinit, .nil _⟩
      exact hname.spans.merge hinit.spans hname.ne_nil hinit.ne_nil (by simp)
        (List.suffix_append _ _)
    · exact tracks_pure fun _ => ⟨hname.spans, row_skip _ _, .nil _⟩
  exact (hlaid.and_reads (reads_declarator bound)).mono fun _ _ h => h.1.stands h.2

private theorem places_declarators (bound : Nat) :
    (declarators bound).Places fun us ds => Row Stands us (ds.map .declarator) :=
  (row_separated (places_declarator bound) .comma bound).mono fun _ _ h => h.2

/-- A statement is laid out by its span and the nodes right below it. -/
theorem laid_stmt {us : List Token} {s : Stmt} (hspans : Spans us s.span)
    (hchildren : Row Stands us s.children) : (Node.stmt s).Laid us :=
  ⟨hspans, hchildren, .nil us⟩

/-- A statement from a first token to a last one. -/
theorem spans_between {us : List Token} {first last : Token} (hfirst : [first] <+: us)
    (hlast : [last] <:+ us) : Spans us (first.span.merge last.span) :=
  (spans_token first).merge (spans_token last) (by simp) (by simp) hfirst hlast

/-- A declaration is laid out from its type to its semicolon. -/
theorem places_declaration (bound : Nat) :
    (declaration bound).Places fun us s => (Node.stmt s).Laid us := by
  intro o
  refine tracks_peek fun first hfirst => ?_
  have hrest : ∀ (isFinal : Bool) (pre : List Token), Row Stands pre [] → Tracks o pre (do
      let type ← writtenType bound
      let names ← declarators bound
      let close ← symbol .semi
      pure (.declare isFinal type names (first.span.merge close))) fun us s =>
        (Node.stmt s).Laid us := by
    intro isFinal pre hpre
    refine (places_writtenType bound).bind fun type us _ htype =>
      (places_declarators bound).bind fun ds vs _ hds => tracks_symbol fun close _ =>
        tracks_pure fun hus => ?_
    refine laid_stmt ?_ (((hpre.node htype).append hds).token close)
    exact spans_between (hfirst.first (by simp) hus) (List.suffix_append _ _)
  refine tracks_acceptKeyword (fun final _ => ?_) ?_
  · exact hrest true _ (row_skip _ _)
  · exact hrest false _ .nil

/-- A statement that ends here spans all from its first token on. -/
theorem tracks_bareWord {o : Cursor} {pre : List Token} {first : Token} (hfirst : [first] <+: pre)
    {make : Span → Stmt} (hspan : ∀ span, (make span).span = span)
    (hchildren : ∀ span, Row Stands pre (make span).children) :
    Tracks o pre (bareWord first.span make) fun us s => (Node.stmt s).Laid us := by
  refine tracks_symbol fun close _ => tracks_pure fun _ => ?_
  refine laid_stmt ?_ ((hchildren _).token close)
  rw [hspan]
  exact spans_between (hfirst.trans (List.prefix_append _ _)) (List.suffix_append _ _)

private theorem tracks_returning {o : Cursor} (bound : Nat) (start : Token) :
    Tracks o [start] (returning bound start.span) fun us s => (Node.stmt s).Laid us := by
  refine tracks_peek fun t _ => .ite ?_ ?_
  · exact tracks_bareWord (by simp) (fun _ => rfl) fun _ => row_skip _ _
  · refine (places_expression bound).bind fun value us _ hvalue => ?_
    exact tracks_bareWord (by simp) (fun _ => rfl) fun _ => (row_skip Stands [start]).node hvalue

/-- An assignment or a call is laid out from its first expression on. -/
theorem places_assignmentOrCall (bound : Nat) :
    (assignmentOrCall bound).Places fun us s => (Node.stmt s).Laid us := by
  intro o
  refine tracks_peek fun first hfirst => (places_expression bound).bind fun e us hus he => ?_
  have hpoints : o.Points e.span := .inr ⟨us, he.ne_nil, hus.isInfix, he.spans⟩
  refine tracks_acceptSymbol (fun sign _ => ?_) ?_
  · rw [if_pos rfl, assignment]
    refine .ite ?_ (tracks_fail hpoints trivial)
    refine (places_expression bound).bind fun value vs _ hvalue => tracks_symbol fun close _ =>
      tracks_pure fun hwhole => ?_
    refine laid_stmt ?_ ((((row_one he).token sign).node hvalue).token close)
    exact spans_between (hfirst.first (by simp) hwhole) (List.suffix_append _ _)
  · rw [if_neg (by simp)]
    refine .ite ?_ (tracks_fail hpoints trivial)
    refine tracks_symbol fun close _ => tracks_pure fun hwhole => ?_
    refine laid_stmt ?_ ((row_one he).token close)
    exact spans_between (hfirst.first (by simp) hwhole) (List.suffix_append _ _)

private theorem places_direction : direction.Places fun _ _ => True := by
  intro o
  refine tracks_acceptKeyword (fun _ _ => tracks_pure fun _ => trivial) ?_
  exact tracks_acceptKeyword (fun _ _ => tracks_pure fun _ => trivial)
    (tracks_failExpected trivial)

section

variable {nested : Parser Stmt} (hn : nested.Places fun us s => (Node.stmt s).Stands us)
  (bound : Nat)

include hn

private theorem tracks_branch {o : Cursor} (start : Token) :
    Tracks o [start] (branch nested bound start.span) fun us s => (Node.stmt s).Laid us := by
  refine (places_expression bound).bind fun condition us _ hcondition =>
    tracks_keyword fun word _ => hn.bind fun thenBranch vs _ hthen => ?_
  have hrow := (((row_skip Stands [start]).node hcondition).token word).node hthen
  refine tracks_acceptKeyword (fun word' _ => ?_) ?_
  · refine hn.bind fun elseBranch ws _ helse => tracks_lastSpan (by simp) fun close hclose =>
      tracks_pure fun _ => ?_
    exact laid_stmt (spans_between (by simp) hclose) ((hrow.token word').node helse)
  · refine tracks_lastSpan (by simp) fun close hclose => tracks_pure fun _ => ?_
    exact laid_stmt (spans_between (by simp) hclose) hrow

private theorem tracks_countedLoop {o : Cursor} (start : Token) :
    Tracks o [start] (countedLoop nested bound start.span) fun us s => (Node.stmt s).Laid us := by
  refine places_identifier.bind fun counter us _ hcounter => tracks_symbol fun sign _ =>
    (places_expression bound).bind fun first vs _ hfirst => places_direction.bind fun way ws _ _ =>
      (places_expression bound).bind fun last xs _ hlast => tracks_keyword fun word _ =>
        hn.bind fun body ys _ hbody => tracks_pure fun _ => ?_
  have hrow := (((row_skip Stands [start]).node hcounter).token sign).node hfirst
  refine laid_stmt ?_ ((((hrow.skip ws).node hlast).token word).node hbody)
  exact (spans_token start).merge hbody.spans (by simp) hbody.ne_nil (by simp)
    (List.suffix_append _ _)

/-- The statements of a block stand in a row. -/
theorem places_blockOf : (blockOf nested bound).Places fun us b => (Node.block b).Laid us := by
  intro o
  refine tracks_symbol fun start _ => (row_manyUntil hn endsBlock bound).bind fun stmts us _ hus =>
    tracks_symbol fun close _ => tracks_pure fun _ => ?_
  exact ⟨spans_between (by simp) (List.suffix_append _ _),
    ((row_skip Stands [start]).append hus).token close, .nil _⟩

/-- A statement of any sort is laid out in its tokens. -/
theorem places_statementOf :
    (statementOf nested bound).Places fun us s => (Node.stmt s).Laid us := by
  intro o
  refine tracks_peek fun t ht => ?_
  split <;> rename_i hkind
  · exact (places_blockOf hn bound).bind fun b us _ hb => tracks_pure fun _ =>
      laid_stmt hb.spans hb.children
  · exact tracks_advance ht (by simp [hkind]) (tracks_branch hn bound t)
  · exact tracks_advance ht (by simp [hkind]) (tracks_countedLoop hn bound t)
  · exact tracks_advance ht (by simp [hkind])
      (tracks_bareWord (by simp) (fun _ => rfl) fun _ => row_skip _ _)
  · exact tracks_advance ht (by simp [hkind])
      (tracks_bareWord (by simp) (fun _ => rfl) fun _ => row_skip _ _)
  · exact tracks_advance ht (by simp [hkind]) (tracks_returning bound t)
  · exact tracks_peekAll fun ahead =>
      .ite (places_declaration bound o) (places_assignmentOrCall bound o)

end

/-- A statement stands in its tokens. -/
theorem places_statement (bound : Nat) :
    (statement bound).Places fun us s => (Node.stmt s).Stands us := by
  induction bound with
  | zero => exact fun _ => tracks_exhausted
  | succ bound ih =>
    have hreads : (statement (bound + 1)).Reads fun us s _ => s.Spelled us :=
      (reads_statement (bound + 1)).mono fun _ _ _ h => h.1
    exact (Places.and_reads (places_statementOf ih (bound + 1)) hreads).mono
      fun _ _ h => h.1.stands h.2

/-- So does a block. -/
theorem places_block (bound : Nat) :
    (block bound).Places fun us b => (Node.block b).Stands us :=
  ((places_blockOf (places_statement bound) bound).and_reads (reads_block bound)).mono
    fun _ _ h => h.1.stands h.2

/-! ## Members and classes -/

/-- The names of parameters stand one behind the other, and their types among the same tokens. -/
structure ParamsLaid (us : List Token) (ps : List Param) : Prop where
  /-- The names in order. -/
  names : Row Stands us (ps.map fun p => .name p.ident)
  /-- The types somewhere. -/
  types : ∀ p ∈ ps, (Node.type p.type).StandsAmong us

/-- The parameters of a group are laid out in their tokens. -/
theorem places_paramGroup (bound : Nat) : (paramGroup bound).Places ParamsLaid := by
  intro o
  refine (places_writtenType bound).bind fun type us _ htype =>
    (row_separated places_identifier .comma bound).bind fun names vs _ hnames =>
      tracks_pure fun _ => ⟨?_, ?_⟩
  · rw [List.map_map]
    exact (row_skip Stands us).append hnames.2
  · intro p hp
    obtain ⟨name, -, rfl⟩ := List.mem_map.mp hp
    exact ⟨us, (List.prefix_append us vs).isInfix, htype⟩

/-- So are the parameters of all groups. -/
theorem places_params (bound : Nat) : (params bound).Places ParamsLaid := by
  have hgroups : (separated .semi (paramGroup bound) bound).Places fun us groups =>
      ParamsLaid us groups.flatten := by
    refine places_separated (places_paramGroup bound) (fun us ps hps => ?_) ?_ .semi bound
    · rwa [List.flatten_singleton]
    · intro us ps t vs groups hps hgroups
      refine ⟨?_, fun p hp => ?_⟩
      · rw [List.flatten_cons, List.map_append]
        exact (hps.names.token t).append hgroups.names
      · rcases List.mem_append.mp hp with hin | hin
        · exact (hps.types p hin).mono ⟨[], [t] ++ vs, by simp⟩
        · exact (hgroups.types p hin).mono (List.suffix_append _ _).isInfix
  intro o
  have hclose : ∀ (groups : List (List Param)) (us : List Token) (t : Token),
      ParamsLaid us groups.flatten → Tracks o ([] ++ [t] ++ us) (do
        let _ ← symbol .rparen
        pure groups.flatten) ParamsLaid := by
    intro groups us t h
    refine tracks_symbol fun close _ => tracks_pure fun _ => ⟨?_, fun p hp => ?_⟩
    · exact ((row_skip Stands [t]).append h.names).token close
    · exact (h.types p hp).mono ⟨[t], [close], by simp⟩
  refine tracks_symbol fun t _ => tracks_peek fun ahead _ => .ite ?_ ?_
  · exact hclose [] [] t ⟨.nil, List.forall_mem_nil _⟩
  · exact hgroups.bind fun groups us _ h => hclose groups us t h

private theorem places_modifiers (rounds : Nat) (m : Modifiers) :
    (modifiers rounds m).Places fun _ _ => True := by
  induction rounds generalizing m with
  | zero => exact fun _ => tracks_exhausted
  | succ rounds ih =>
    intro o
    refine tracks_acceptKeyword (fun _ _ => ?_) (tracks_acceptKeyword (fun _ _ => ?_) ?_)
    · exact (ih _).tracks.mono fun _ _ _ => trivial
    · exact (ih _).tracks.mono fun _ _ _ => trivial
    · exact tracks_pure fun _ => trivial

/-- The result of a method stands before its name, if there is one. -/
theorem places_resultType (bound : Nat) : (resultType bound).Places fun us result =>
    us ≠ [] ∧ Row Stands us (result.toList.map .type) := by
  intro o
  refine tracks_acceptKeyword (fun _ _ => tracks_pure fun _ => ⟨by simp, row_skip _ _⟩) ?_
  exact (places_writtenType bound).bind fun type us _ htype => tracks_pure fun _ =>
    ⟨htype.ne_nil, row_one htype⟩

section

variable {o : Cursor} {first : Token} (hfirst : Ahead o [] first) (bound : Nat)

include hfirst

private theorem tracks_destructor {pre : List Token} :
    Tracks o pre (destructor bound first.span) fun us m => (Node.member m).Laid us := by
  refine places_identifier.bind fun name us _ _ => tracks_symbol fun left _ =>
    tracks_symbol fun right _ => (places_block bound).bind fun body vs _ hbody =>
      tracks_pure fun hwhole => ⟨?_, (row_skip Stands _).node hbody, .nil _⟩
  exact (spans_token first).merge hbody.spans (by simp) hbody.ne_nil
    (hfirst.first (by simp) hwhole) (List.suffix_append _ _)

private theorem tracks_constructorDecl :
    Tracks o [] (constructorDecl bound first.span) fun us m => (Node.member m).Laid us := by
  refine places_identifier.bind fun name us _ hname => (places_params bound).bind
    fun formals vs _ hformals => (places_block bound).bind fun body ws _ hbody =>
      tracks_pure fun hwhole => ⟨?_, ?_, scattered_iff.mpr ?_⟩
  · exact (spans_token first).merge hbody.spans (by simp) hbody.ne_nil
      (hfirst.first (by simp [hname.ne_nil]) hwhole) (List.suffix_append _ _)
  · exact ((row_skip Stands us).append hformals.names).node hbody
  · intro m hm
    obtain ⟨p, hp, rfl⟩ := List.mem_map.mp hm
    exact (hformals.types p hp).mono ⟨us, ws, by simp⟩

private theorem tracks_methodDecl {pre : List Token} {isStatic : Bool} {result : Option WrittenType}
    (hresult : Row Stands pre (result.toList.map .type)) :
    Tracks o pre (methodDecl bound first.span isStatic result) fun us m =>
      (Node.member m).Laid us := by
  refine places_identifier.bind fun name us _ hname => (places_params bound).bind
    fun formals vs _ hformals => (places_block bound).bind fun body ws _ hbody =>
      tracks_pure fun hwhole => ⟨?_, ?_, scattered_iff.mpr ?_⟩
  · exact (spans_token first).merge hbody.spans (by simp) hbody.ne_nil
      (hfirst.first (by simp [hname.ne_nil]) hwhole) (List.suffix_append _ _)
  · exact ((hresult.skip us).append hformals.names).node hbody
  · intro m hm
    obtain ⟨p, hp, rfl⟩ := List.mem_map.mp hm
    exact (hformals.types p hp).mono ⟨pre ++ us, ws, by simp⟩

private theorem tracks_attributeDecl {pre : List Token} {m : Modifiers} {type : WrittenType}
    (htype : Row Stands pre [.type type]) :
    Tracks o pre (attributeDecl bound first.span m type) fun us m => (Node.member m).Laid us := by
  refine (places_declarators bound).bind fun ds us _ hds => tracks_symbol fun close _ =>
    tracks_pure fun hwhole => ⟨?_, (htype.append hds).token close, .nil _⟩
  exact spans_between (hfirst.first (by simp) hwhole) (List.suffix_append _ _)

private theorem tracks_typedMember :
    Tracks o [] (typedMember bound first.span) fun us m => (Node.member m).Laid us := by
  refine (places_modifiers bound _).bind fun m us _ _ => (places_resultType bound).bind
    fun result vs _ hresult => tracks_peekAll fun ahead => ?_
  have hrow : Row Stands ([] ++ us ++ vs) (result.toList.map .type) :=
    (row_skip Stands us).append hresult.2
  refine .ite (.ite (tracks_fail hfirst.1 trivial) (tracks_methodDecl hfirst bound hrow)) ?_
  cases result with
  | none => exact tracks_fail hfirst.1 trivial
  | some type => exact tracks_attributeDecl hfirst bound hrow

end

/-- A member stands in its tokens. -/
theorem places_member (bound : Nat) :
    (member bound).Places fun us m => (Node.member m).Stands us := by
  have hlaid : (member bound).Places fun us m => (Node.member m).Laid us := by
    intro o
    refine tracks_peek fun t ht => tracks_peekAll fun ahead => .ite ?_ (tracks_failExpected trivial)
    refine tracks_acceptSymbol (fun tilde _ => tracks_destructor ht bound) ?_
    rw [if_neg (by simp)]
    exact .ite (tracks_constructorDecl ht bound) (tracks_typedMember ht bound)
  exact (hlaid.and_reads (reads_member bound)).mono fun _ _ h => h.1.stands h.2

private theorem places_parentClass : parentClass.Places fun us parent =>
    Row Stands us (parent.toList.map .name) := by
  intro o
  refine tracks_acceptKeyword (fun word _ => ?_) (tracks_pure fun _ => .nil)
  exact places_identifier.bind fun parent us _ hparent => tracks_pure fun _ =>
    (row_skip Stands [word]).node hparent

/-- A class stands in its tokens. -/
theorem places_classDecl (bound : Nat) :
    (classDecl bound).Places fun us c => (Node.classDecl c).Stands us := by
  have hlaid : (classDecl bound).Places fun us c => (Node.classDecl c).Laid us := by
    intro o
    refine tracks_keyword fun start _ => places_identifier.bind fun name us _ hname =>
      places_parentClass.bind fun parent vs _ hparent => tracks_symbol fun left _ =>
        (row_manyUntil (places_member bound) endsClass bound).bind fun members ws _ hmembers =>
          tracks_symbol fun close _ => tracks_pure fun _ => ⟨?_, ?_, .nil _⟩
    · exact spans_between (by simp) (List.suffix_append _ _)
    · have hhead := ((row_skip Stands [start]).node hname).append hparent
      exact ((hhead.token left).append hmembers).token close
  exact (hlaid.and_reads (reads_classDecl bound)).mono fun _ _ h => h.1.stands h.2

/-- The classes of a program stand in a row. -/
theorem places_program (bound : Nat) : (program bound).Places fun us p =>
    Row Stands us (p.classes.map .classDecl) := by
  intro o
  refine tracks_peek fun first _ => (row_manyUntil (places_classDecl bound) endsProgram bound).bind
    fun classes us _ hclasses => tracks_peek fun stop _ => tracks_pure fun _ => hclasses

end Parser

/-- The classes of a parsed program stand one behind the other in its tokens. -/
theorem Program.row_of_ofTokens {ts : List Token} {p : Program}
    (h : Program.ofTokens ts = .ok p) :
    Node.Row Node.Stands (Cursor.ofTokens ts).ahead (p.classes.map .classDecl) := by
  obtain ⟨c, hparse, hend⟩ := Program.exists_end_of_ofTokens h
  obtain ⟨us, hus, hrow⟩ :=
    (Parser.places_program _ _ _ (Cursor.ofTokens ts).reaches_self).1 p c hparse
  rwa [hus.ahead, hend, List.append_nil]

/-- Each class of a parsed program stands among the tokens before the end of file. -/
theorem Program.standsAmong_of_ofTokens {ts : List Token} {p : Program}
    (h : Program.ofTokens ts = .ok p) {c : ClassDecl} (hc : c ∈ p.classes) :
    (Node.classDecl c).StandsAmong (Cursor.ofTokens ts).ahead :=
  (Program.row_of_ofTokens h).exists_of_mem (List.mem_map_of_mem hc)

/-- A syntax error stands at the end of the tokens or at some of them, and quotes nothing else. -/
theorem Program.blames_of_ofTokens {ts : List Token} {e : SyntaxError}
    (h : Program.ofTokens ts = .error e) : (Cursor.ofTokens ts).Blames e := by
  rw [Program.ofTokens, Parser.run] at h
  cases hparse : Parser.program (ts.length + 1) (Cursor.ofTokens ts) with
  | error r =>
    rw [hparse] at h
    cases h
    exact ((Parser.places_program _ _ _ (Cursor.ofTokens ts).reaches_self).2 r hparse).blames
  | ok r =>
    rw [hparse] at h
    cases h

end ClassCheck
