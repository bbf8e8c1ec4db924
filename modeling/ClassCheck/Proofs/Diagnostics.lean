import ClassCheck.Proofs.Blame
import ClassCheck.Proofs.Excerpts
import ClassCheck.Proofs.Placement

/-!
# Where failures stand and what they quote

A failure of a source text stands at a lexeme, at tokens in a row or at the end of the text. So its
place can be shown in the text, and where a violation quotes an expression or a statement, what
stands at its place reads as one that is written the same.
-/

namespace ClassCheck

/-! ## Tokens of a text -/

/-- Tokens are those of a text before its end. -/
structure Scanned (source : String) (us : List Token) : Prop where
  /-- A scanner reads them from the text. -/
  reads : ∃ s', Scanner.Reads (.ofText source) (us.map Except.ok) s'
  /-- They stand in the text one behind the other. -/
  tiles : Scanner.Tiles source 0 (us.map Except.ok)

namespace Scanned

variable {source : String} {us vs : List Token}

/-- The tokens of a text stand one behind the other. -/
theorem ordered (h : Scanned source us) : Token.Ordered us := by
  refine ⟨fun u hu => ?_, ?_⟩
  · exact Nat.le_of_lt (h.tiles.covers _ (List.mem_map_of_mem hu)).1
  · have hordered := h.tiles.ordered
    rwa [List.map_map, List.pairwise_map] at hordered

/-- What stands at the place of some tokens in a row is scanned to them. -/
theorem exists_excerpt (h : Scanned source us) (hvs : vs <:+: us) (hne : vs ≠ []) {span : Span}
    (hspan : Token.Spans vs span) :
    ∃ part ts, Text.slice? source span = some part ∧ part ≠ "" ∧ tokenize part = .ok ts ∧
      Token.kindsBeforeEof ts = vs.map Token.kind := by
  obtain rfl := hspan (h.ordered.within hvs)
  obtain ⟨before, after, rfl⟩ := hvs
  obtain ⟨s', hreads⟩ := h.reads
  obtain ⟨part, ts, hpart, hpartne, htokens, hkinds⟩ := ClassCheck.exists_excerpt hreads hne
  refine ⟨part, ts, hpart, hpartne, htokens, ?_⟩
  have hbefore := (kindsBeforeEof_of_tokenize htokens).1
  exact List.append_cancel_right (hbefore.symm.trans hkinds)

/-- A name stands at its place. -/
theorem slice?_of_ident (h : Scanned source us) {name : String} {span : Span}
    (hname : (Node.expr (.ident name span)).StandsAmong us) :
    Text.slice? source span = some name := by
  obtain ⟨vs, hvs, hstands⟩ := hname
  have hspan : span = Token.extent vs := hstands.spans (h.ordered.within hvs)
  have hspelled : Expr.Spelled (vs.map Token.kind) (.ident name span) := hstands.spelled
  generalize hkinds : vs.map Token.kind = ks at hspelled
  cases hspelled
  obtain ⟨u, rfl, hu⟩ := List.map_eq_singleton_iff.mp hkinds
  obtain ⟨-, hslice⟩ := h.tiles.spelled u (List.mem_map_of_mem (hvs.subset List.mem_cons_self))
  rwa [hu, ← Token.extent_singleton, ← hspan] at hslice

end Scanned

/-- The parser of a source text has the tokens of the text ahead, and then the end of the text. -/
theorem scanned_of_tokenize {source : String} {ts : List Token} (h : tokenize source = .ok ts) :
    Scanned source (Cursor.ofTokens ts).ahead ∧
      (Cursor.ofTokens ts).stop = .point source.utf8ByteSize := by
  obtain ⟨us, s', rfl, hreads, hend⟩ := Scanner.exists_reads_of_tokenize h
  have htiles : Scanner.Tiles source (Text.byteLength []) (us.map Except.ok) :=
    hreads.tiles hend rfl rfl
  have hkinds : ∀ u ∈ us, u.kind ≠ .eof := fun u hu =>
    (htiles.spelled u (List.mem_map_of_mem hu)).1
  -- The only end of file is the one that the scanner puts behind the tokens.
  obtain ⟨hahead, hstop⟩ := Cursor.ahead_stop_of_append hkinds
    (t := ⟨.eof, .point source.utf8ByteSize⟩) rfl []
  rw [hahead, hstop]
  exact ⟨⟨⟨s', hreads⟩, htiles⟩, rfl⟩

/-! ## Failures -/

/-- A source text fails where it is split into tokens, where these are parsed, or in the check. -/
theorem failure_of_checkSource {source : String} {failure : Failure}
    (h : checkSource source = .error failure) :
    (∃ e, tokenize source = .error e ∧ failure = .ofLexical e) ∨
    ∃ ts, tokenize source = .ok ts ∧
      ((∃ e, Program.ofTokens ts = .error e ∧ failure = .ofSyntax e) ∨
        ∃ p v, Program.ofTokens ts = .ok p ∧ p.check = .error v ∧ failure = .violation v) := by
  rw [checkSource, parseSource, scanSource] at h
  cases htokens : tokenize source with
  | error e =>
    rw [htokens] at h
    exact .inl ⟨e, rfl, (Except.error.inj h).symm⟩
  | ok ts =>
    refine .inr ⟨ts, rfl, ?_⟩
    rw [htokens] at h
    change (parseTokens ts >>= _) = _ at h
    rw [parseTokens] at h
    cases hparse : Program.ofTokens ts with
    | error e =>
      rw [hparse] at h
      exact .inl ⟨e, rfl, (Except.error.inj h).symm⟩
    | ok p =>
      rw [hparse] at h
      change p.check.mapError Failure.violation = _ at h
      cases hcheck : p.check with
      | error v =>
        rw [hcheck] at h
        exact .inr ⟨p, v, rfl, hcheck, (Except.error.inj h).symm⟩
      | ok u =>
        rw [hcheck] at h
        cases h

/-- A violation with a place is blamed on a node that stands among the tokens of the text. -/
theorem exists_blamed_of_checkSource {source : String} {v : Violation}
    (h : checkSource source = .error (.violation v)) (hv : v ≠ .noEntryPoint) :
    ∃ us, ∃ n : Node, Scanned source us ∧ n.StandsAmong us ∧ n.Blamed v := by
  rcases failure_of_checkSource h with ⟨e, -, he⟩ | ⟨ts, htokens, ⟨e, -, he⟩ | hviolation⟩
  · cases he
  · cases he
  · obtain ⟨p, w, hp, hcheck, hw⟩ := hviolation
    cases hw
    obtain ⟨c, hc, n, hin, hblamed⟩ := Program.faults_of_check hcheck hv
    have hclass := Program.standsAmong_of_ofTokens hp hc
    exact ⟨_, n, (scanned_of_tokenize htokens).1, hclass.inside hin, hblamed⟩

/-- A span marks a piece of a text, which may be empty. -/
structure Span.Marks (span : Span) (text : String) : Prop where
  /-- It does not run backwards. -/
  forward : span.start ≤ span.stop
  /-- It stops in the text. -/
  inside : span.stop ≤ text.utf8ByteSize
  /-- It starts between two characters, or at an end of the text. -/
  start_valid : String.Pos.Raw.IsValid text ⟨span.start⟩
  /-- It stops between two characters, or at an end of the text. -/
  stop_valid : String.Pos.Raw.IsValid text ⟨span.stop⟩

/-- What is cut out of a text and is not empty is marked in it. -/
theorem marks_of_slice? {text part : String} {span : Span}
    (h : Text.slice? text span = some part) (hne : part ≠ "") :
    span.Marks text ∧ span.start < span.stop := by
  obtain ⟨hstart, hstop⟩ := Text.isValid_of_slice? h
  have hlength := Text.stop_of_slice? h
  have hpos := Text.byteLength_pos (mt String.toList_eq_nil_iff.mp hne)
  exact ⟨⟨by omega, Text.stop_le_of_slice? h, hstart, hstop⟩, by omega⟩

private theorem marks_point (text : String) : (Span.point text.utf8ByteSize).Marks text :=
  ⟨le_rfl, le_rfl, String.Pos.Raw.isValid_rawEndPos, String.Pos.Raw.isValid_rawEndPos⟩

/-- A lexical error stands at a lexeme. -/
theorem marks_of_lexical {source : String} {e : LexicalError} (h : tokenize source = .error e) :
    e.span.Marks source ∧ e.span.start < e.span.stop := by
  obtain ⟨answers, s', hreads, hend, he⟩ := Scanner.exists_reads_of_error h
  have htiles : Scanner.Tiles source (Text.byteLength []) answers := hreads.tiles hend rfl rfl
  obtain ⟨hlt, hstart, hstop⟩ := htiles.covers _ he
  exact ⟨⟨Nat.le_of_lt hlt, hstop.le_utf8ByteSize, hstart, hstop⟩, hlt⟩

/-- What stands at the place of a node is scanned to tokens that spell the node. -/
theorem Node.StandsAmong.exists_excerpt {source : String} {us : List Token} {n : Node}
    (h : n.StandsAmong us) (hus : Scanned source us) :
    ∃ part ts, Text.slice? source n.span = some part ∧ part ≠ "" ∧ tokenize part = .ok ts ∧
      n.Spelled (Token.kindsBeforeEof ts) := by
  obtain ⟨vs, hvs, hstands⟩ := h
  obtain ⟨part, ts, hpart, hne, htokens, hkinds⟩ :=
    hus.exists_excerpt hvs hstands.ne_nil hstands.spans
  exact ⟨part, ts, hpart, hne, htokens, hkinds ▸ hstands.spelled⟩

/-- A violation stands where a node inside the one that it is blamed on does. -/
theorem Node.Blamed.exists_inside {n : Node} {rule : Rule} {subject : String} {span : Span}
    (h : n.Blamed (.broken rule subject span)) : ∃ m : Node, m.Inside n ∧ m.span = span := by
  cases h with
  | @init decl _ d _ hd _ =>
    refine ⟨.declarator d, .deeper (List.mem_append_left _ ?_) (.self _), rfl⟩
    exact List.mem_cons_of_mem _ (List.mem_map_of_mem hd)
  | _ => exact ⟨_, .self _, rfl⟩

/-- A failure of a source text has a place unless the program cannot start, and a diagnostic labels
that place. The place is a piece of the text that starts and stops between characters. It is not
empty, but for a syntax error at the end of the text. -/
theorem failure_marks_source {source : String} {failure : Failure}
    (h : checkSource source = .error failure) :
    (failure.span? = none ↔ failure = .violation .noEntryPoint) ∧
    failure.diagnostic.label.map Prod.snd = failure.span? ∧
    ∀ span, failure.span? = some span → span.Marks source ∧
      (span.start < span.stop ∨
        (∃ message, failure = .grammar message span) ∧ span = .point source.utf8ByteSize) := by
  rcases failure_of_checkSource h with ⟨e, htokens, rfl⟩ | ⟨ts, htokens, ⟨e, he, rfl⟩ | hviolation⟩
  · refine ⟨by simp [Failure.ofLexical, Failure.span?], rfl, ?_⟩
    rintro _ ⟨⟩
    exact (marks_of_lexical htokens).imp_right .inl
  · refine ⟨by simp [Failure.ofSyntax, Failure.span?], rfl, ?_⟩
    rintro _ ⟨⟩
    obtain ⟨hus, hstop⟩ := scanned_of_tokenize htokens
    rcases (Program.blames_of_ofTokens he).points with hend | ⟨vs, hne, hvs, hspan⟩
    · have hpoint := hend.trans hstop
      refine ⟨hpoint ▸ marks_point source, .inr ⟨⟨e.fault.message, rfl⟩, hpoint⟩⟩
    · obtain ⟨part, ts', hpart, hpartne, -, -⟩ := hus.exists_excerpt hvs hne hspan
      exact (marks_of_slice? hpart hpartne).imp_right .inl
  · obtain ⟨p, v, -, -, rfl⟩ := hviolation
    cases v with
    | noEntryPoint => exact ⟨by simp [Failure.span?, Violation.span?], rfl, nofun⟩
    | broken rule subject span =>
      refine ⟨by simp [Failure.span?, Violation.span?], rfl, ?_⟩
      rintro _ ⟨⟩
      obtain ⟨us, n, hus, hn, hblamed⟩ := exists_blamed_of_checkSource h (by simp)
      obtain ⟨m, hm, rfl⟩ := hblamed.exists_inside
      obtain ⟨part, ts, hpart, hne, -, -⟩ := (hn.inside hm).exists_excerpt hus
      exact (marks_of_slice? hpart hne).imp_right .inl

/-- A comment with a character of two bytes, and a class without an end. -/
def unclosedText : String := "/* é */ class A \x7b"

/-- A member is missed behind the last byte, not behind the last character. -/
theorem unclosedText_marked :
    checkSource unclosedText =
        .error (.grammar "expected member declaration, found end of file" (.point 18)) ∧
      (Span.point 18).Marks unclosedText ∧ unclosedText.length = 17 := by
  have h : checkSource unclosedText =
      .error (.grammar "expected member declaration, found end of file" (.point 18)) := by
    decide +kernel
  obtain ⟨-, -, hmarks⟩ := failure_marks_source h
  exact ⟨h, (hmarks _ rfl).1, by decide +kernel⟩

/-! ## What a violation quotes -/

/-- A parser reads a text as one whole: the text is split into tokens, and from a bound on that is
enough for them the parser takes them all for one value, of which something is known. -/
def Parser.ReadsWhole {α : Type} (p : Nat → Parser α) (text : String) (Q : α → Prop) : Prop :=
  ∃ ts, tokenize text = .ok ts ∧ ∀ bound, ts.length ≤ bound →
    ∃ a c, p bound (.ofTokens ts) = .ok (a, c) ∧ c.ahead = [] ∧ Q a

/-- A parser reads a text as one whole if it yields a value from the kinds of the tokens alone. What
does not depend on places is then known of the value that it reads. -/
theorem Parser.readsWhole_of_yields {α : Type} [Spanned α] {p : Nat → Parser α} {part : String}
    {ts : List Token} {a : α} {Q : α → Prop} (htokens : tokenize part = .ok ts)
    (hstrips : ∀ bound, Parser.Strips (p bound) (p bound))
    (hyields : ∀ bound rest, (Token.kindsBeforeEof ts).length ≤ bound →
      rest.head?.getD .eof = .eof → (p bound).Yields (Token.kindsBeforeEof ts) a rest)
    (hQ : ∀ b, Spanned.spanless b = a → Q b) : Parser.ReadsWhole p part Q := by
  refine ⟨ts, htokens, fun bound hbound => ?_⟩
  have hlength := (Token.length_kindsBeforeEof_le ts).trans hbound
  obtain ⟨b, c, hparse, hahead, hb⟩ :=
    Parser.exists_of_yields (hstrips bound) fun rest hrest => hyields bound rest hlength hrest
  exact ⟨b, c, hparse, hahead, hQ b hb⟩

/-- Tokens that spell an expression are read as one that is rendered the same. -/
theorem readsWhole_expression {part : String} {ts : List Token} {e : Expr}
    (htokens : tokenize part = .ok ts) (h : e.Spelled (Token.kindsBeforeEof ts)) :
    Parser.ReadsWhole Parser.expression part fun e' => e'.render = e.render := by
  refine Parser.readsWhole_of_yields htokens Parser.strips_expression
    (fun _ _ hlength hrest =>
      Parser.yields_expression h hlength (Parser.stops_of_end 0 hrest)) ?_
  intro e' (hspanless : e'.spanless = e.spanless)
  rw [← e'.render_spanless, hspanless, e.render_spanless]

/-- Tokens that spell a statement are read as one that is rendered the same. -/
theorem readsWhole_statement {part : String} {ts : List Token} {s : Stmt}
    (htokens : tokenize part = .ok ts) (h : s.Spelled (Token.kindsBeforeEof ts)) :
    Parser.ReadsWhole Parser.statement part fun s' => s'.render = s.render := by
  refine Parser.readsWhole_of_yields htokens Parser.strips_statement
    (fun bound rest hlength hrest => Parser.takesStmts_statement bound s _ rest h hlength
      fun _ => Parser.head?_ne_of_end hrest (by simp)) ?_
  intro s' (hspanless : s'.spanless = s.spanless)
  rw [← s'.render_spanless, hspanless, s.render_spanless]

namespace Node.Blamed

variable {n : Node} {rule : Rule} {subject : String} {span : Span}
  (h : n.Blamed (.broken rule subject span))

include h

/-- A rule of expressions is blamed on an expression. -/
theorem exists_expr (hrule : rule ∈ Rule.ofExprs) :
    ∃ e : Expr, n = .expr e ∧ e.render = subject ∧ e.span = span := by
  have hdisjoint : ∀ rule ∈ Rule.ofExprs, rule ∉ Rule.ofStmts := by decide
  cases h with
  | expr _ => exact ⟨_, rfl, rfl, rfl⟩
  | stmt hstmt => exact absurd hstmt (hdisjoint rule hrule)
  | init _ hinit => exact absurd (Rule.mem_ofStmts hinit) (hdisjoint rule hrule)
  | _ => simp [Rule.ofExprs] at hrule

/-- A rule of actions is blamed on a statement. -/
theorem exists_stmt (hrule : rule = .mustInLoop ∨ rule = .cannotAssignToConstant) :
    ∃ s : Stmt, n = .stmt s ∧ s.render = subject ∧ s.span = span := by
  have hother : rule ∉ Rule.ofExprs ∧ rule ∉ Rule.ofInits := by
    rcases hrule with rfl | rfl <;> decide
  cases h with
  | stmt _ => exact ⟨_, rfl, rfl, rfl⟩
  | expr hexpr => exact absurd hexpr hother.1
  | init _ hinit => exact absurd hinit hother.2
  | _ => simp at hrule

/-- An unknown name is blamed on itself. -/
theorem eq_ident (hrule : rule = .undeclaredIdentifier) : n = .expr (.ident subject span) := by
  subst hrule
  cases h with
  | ident => rfl
  | expr hexpr => exact absurd hexpr (by decide)
  | stmt hstmt => exact absurd hstmt (by decide)
  | init _ hinit => exact absurd hinit (by decide)

end Node.Blamed

/-- What a violation quotes stands at its place. If an expression as a whole breaks a rule, that is
if types do not fit in it, if it is an illegal access to a member, an illegal array literal or no
constant expression, then the text at the place reads as one whole expression, which is written as
the violation quotes it. So does it as one whole statement if a loop is left outside of any or a
constant is assigned to. A name that is not declared is the text at its place. -/
theorem violation_quotes_source {source : String} {rule : Rule} {subject : String} {span : Span}
    (h : checkSource source = .error (.violation (.broken rule subject span))) :
    ∃ part, Text.slice? source span = some part ∧
      (rule ∈ Rule.ofExprs →
        Parser.ReadsWhole Parser.expression part fun e => e.render = subject) ∧
      (rule = .mustInLoop ∨ rule = .cannotAssignToConstant →
        Parser.ReadsWhole Parser.statement part fun s => s.render = subject) ∧
      (rule = .undeclaredIdentifier → part = subject) := by
  obtain ⟨us, n, hus, hn, hblamed⟩ := exists_blamed_of_checkSource h (by simp)
  obtain ⟨m, hm, hspan⟩ := hblamed.exists_inside
  obtain ⟨part, -, hpart, -⟩ := (hn.inside hm).exists_excerpt hus
  rw [hspan] at hpart
  refine ⟨part, hpart, fun hrule => ?_, fun hrule => ?_, fun hrule => ?_⟩
  · obtain ⟨e, rfl, rfl, rfl⟩ := hblamed.exists_expr hrule
    obtain ⟨part', ts, hpart', -, htokens, hspelled⟩ := hn.exists_excerpt hus
    obtain rfl := Option.some.inj (hpart.symm.trans hpart')
    exact readsWhole_expression htokens hspelled
  · obtain ⟨s, rfl, rfl, rfl⟩ := hblamed.exists_stmt hrule
    obtain ⟨part', ts, hpart', -, htokens, hspelled⟩ := hn.exists_excerpt hus
    obtain rfl := Option.some.inj (hpart.symm.trans hpart')
    exact readsWhole_statement htokens hspelled
  · obtain rfl := hblamed.eq_ident hrule
    exact Option.some.inj (hpart.symm.trans (hus.slice?_of_ident hn))

/-- A method that adds a truth value to a number, with a comment in between. -/
def spacedSumText : String := "class A \x7b void f() \x7b int x := 1 /* é */ + true; \x7d \x7d"

/-- A method that leaves a loop where there is none. -/
def strayBreakText : String := "class A \x7b void f() \x7b if true then break ; \x7d \x7d"

/-- The sum is quoted without the comment and the statement without the semicolon. -/
theorem spacedSum_quoted :
    (checkSource spacedSumText =
        .error (.violation (.broken .mismatchInExpression "1 + true" ⟨30, 47⟩)) ∧
      ∃ part, Text.slice? spacedSumText ⟨30, 47⟩ = some part ∧
        Parser.ReadsWhole Parser.expression part fun e => e.render = "1 + true") ∧
    checkSource strayBreakText =
        .error (.violation (.broken .mustInLoop "break" ⟨34, 41⟩)) ∧
      ∃ part, Text.slice? strayBreakText ⟨34, 41⟩ = some part ∧
        Parser.ReadsWhole Parser.statement part fun s => s.render = "break" := by
  have hsum : checkSource spacedSumText =
      .error (.violation (.broken .mismatchInExpression "1 + true" ⟨30, 47⟩)) := by
    decide +kernel
  have hbreak : checkSource strayBreakText =
      .error (.violation (.broken .mustInLoop "break" ⟨34, 41⟩)) := by
    decide +kernel
  obtain ⟨sum, hsumPart, hexpr, -⟩ := violation_quotes_source hsum
  obtain ⟨statement, hbreakPart, -, hstmt, -⟩ := violation_quotes_source hbreak
  exact ⟨⟨hsum, sum, hsumPart, hexpr (by decide)⟩, hbreak, statement, hbreakPart, hstmt (.inl rfl)⟩

end ClassCheck
