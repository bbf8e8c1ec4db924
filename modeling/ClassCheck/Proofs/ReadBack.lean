import ClassCheck.Proofs.Parsing
import ClassCheck.Proofs.Rendering
import ClassCheck.Verdict

/-!
# Rendered expressions read back

Every expression of a parsed program, written in source form, is parsed to itself again, spans
aside. Its names and numbers were scanned from a text, so they look like names and numbers; the
expression is spelled by tokens, so operators stand at the levels that the grammar gives them
without further parentheses. Left out are strings with characters that have no short escape,
floating-point values that are no numbers, and selections from an integer literal.
-/

namespace ClassCheck

open Lexeme

/-! ## Scanned tokens -/

namespace Lexeme

private theorem singleTail_shape (c : Char) :
    (∃ sign, (singleTail c).1 = .sign sign) ∨ (singleTail c).1 = .stray := by
  unfold singleTail
  split
  · exact .inl ⟨_, rfl⟩
  · exact .inr rfl

/-- What starts with no letter, digit or quote is a sign or nothing. -/
theorem signTail_shape (c : Char) (cs : List Char) :
    (∃ sign, (signTail c cs).1 = .sign sign) ∨ (signTail c cs).1 = .stray ∨
      (signTail c cs).1 = .openComment := by
  have hsingle := (singleTail_shape c).imp_right fun h =>
    (.inl h : (singleTail c).1 = .stray ∨ (singleTail c).1 = .openComment)
  unfold signTail
  split
  · exact hsingle
  · split
    · exact .inr (.inr rfl)
    · split
      · exact .inl ⟨_, rfl⟩
      · exact hsingle

/-- The token of a lexeme looks like what it is. -/
theorem lexical_of_classify {c : Char} {cs : List Char} {k : TokenKind}
    (h : classify (tail c cs).1 (String.ofList (c :: cs.take (tail c cs).2)) = .ok k) :
    k.Lexical := by
  unfold tail at h
  by_cases hquote : c = '"'
  · rw [if_pos hquote] at h
    unfold stringTail at h
    dsimp only at h
    split at h
    · cases h
      trivial
    · cases h
  rw [if_neg hquote] at h
  by_cases hstart : isWordStart c = true
  · rw [if_pos hstart] at h
    unfold classify at h
    dsimp only at h
    split at h
    · cases h
      trivial
    · rename_i hword
      cases h
      refine ⟨⟨c, _, String.toList_ofList, hstart, ?_⟩, hword⟩
      rw [take_runLength]
      exact fun d hd => List.mem_takeWhile_imp hd
  rw [if_neg hstart] at h
  by_cases hdigit : c.isDigit = true
  · rw [if_pos hdigit] at h
    unfold numberTail at h
    dsimp only at h
    split at h
    · cases h
      exact ⟨c, _, rfl, hdigit⟩
    · split at h
      · cases h
        intro d hd
        rw [String.toList_ofList, take_runLength] at hd
        rcases List.mem_cons.mp hd with rfl | hin
        · exact hdigit
        · exact List.mem_takeWhile_imp hin
      · cases h
        exact ⟨c, _, rfl, hdigit⟩
  rw [if_neg hdigit] at h
  obtain ⟨sign, hshape⟩ | hshape | hshape := signTail_shape c cs
  · rw [hshape] at h
    cases h
    trivial
  · rw [hshape] at h
    cases h
  · rw [hshape] at h
    cases h

end Lexeme

namespace Scanner

/-- A scanned token that is not the end of file looks like one of its kind. -/
theorem lexical_of_lexeme {s : Scanner} {t : Token} (hne : s.rest ≠ [])
    (h : s.lexeme.1 = .ok t) : t.kind.Lexical := by
  obtain ⟨c, cs, hrest⟩ := List.exists_cons_of_ne_nil hne
  unfold lexeme at h
  rw [hrest] at h
  dsimp only at h
  rw [List.take_succ_cons] at h
  split at h
  · rename_i kind hkind
    cases h
    exact lexical_of_classify hkind
  · cases h

/-- The tokens of a text end with the end of file and look like what they are before it. -/
theorem exists_lexical_of_tokens (s : Scanner) {ts : List Token} (h : s.tokens = .ok ts) :
    ∃ ks, ts.map Token.kind = ks ++ [.eof] ∧ ∀ k ∈ ks, k.Lexical := by
  rw [tokens] at h
  dsimp only at h
  by_cases hempty : s.skipTrivia.rest = []
  · rw [dif_pos hempty] at h
    cases h
    exact ⟨[], rfl, List.forall_mem_nil _⟩
  · rw [dif_neg hempty] at h
    have hless := length_next_lt hempty
    cases hstep : s.skipTrivia.lexeme.1 with
    | error e =>
      rw [hstep] at h
      cases h
    | ok t =>
      rw [hstep] at h
      dsimp only at h
      cases hmore : s.skipTrivia.lexeme.2.tokens with
      | error e =>
        rw [hmore] at h
        cases h
      | ok more =>
        rw [hmore] at h
        cases h
        obtain ⟨ks, hks, hall⟩ := exists_lexical_of_tokens _ hmore
        refine ⟨t.kind :: ks, ?_, ?_⟩
        · rw [List.map_cons, hks, List.cons_append]
        · exact List.forall_mem_cons.mpr ⟨lexical_of_lexeme hempty hstep, hall⟩
termination_by s.rest.length

end Scanner

/-- The kinds before the end of file of a scanned text look like what they are, and are all but
the last. -/
theorem kindsBeforeEof_of_tokenize {source : String} {ts : List Token}
    (h : tokenize source = .ok ts) :
    ts.map Token.kind = Token.kindsBeforeEof ts ++ [.eof] ∧
      ∀ k ∈ Token.kindsBeforeEof ts, k.Lexical := by
  obtain ⟨ks, hks, hall⟩ := Scanner.exists_lexical_of_tokens _ h
  have hbefore : Token.kindsBeforeEof ts = ks := by
    rw [Token.kindsBeforeEof, hks, List.takeWhile_append_of_pos]
    · simp
    · intro k hk
      have hlexical := hall k hk
      rw [decide_eq_true_eq]
      rintro rfl
      exact hlexical
  rw [hbefore]
  exact ⟨hks, hall⟩

/-! ## Expressions of a program -/

/-- The initial value of a declared name and everything inside it. -/
def Declarator.exprs (d : Declarator) : List Expr := d.init.elim [] Expr.parts

namespace Stmt

mutual

/-- The expressions of a statement and everything inside them. -/
def exprs : Stmt → List Expr
  | .declare _ _ ds _ => ds.flatMap Declarator.exprs
  | .assign target value _ => target.parts ++ value.parts
  | .ifThen condition thenBranch _ => condition.parts ++ thenBranch.exprs
  | .ifElse condition thenBranch elseBranch _ =>
    condition.parts ++ thenBranch.exprs ++ elseBranch.exprs
  | .loop _ first last _ body _ => first.parts ++ last.parts ++ body.exprs
  | .breakLoop _ | .continueLoop _ => []
  | .returnValue value _ => value.elim [] Expr.parts
  | .call invocation _ => invocation.parts
  | .block stmts _ => exprsAll stmts

/-- The expressions of statements and everything inside them. -/
def exprsAll : List Stmt → List Expr
  | [] => []
  | s :: ss => s.exprs ++ exprsAll ss

end

private theorem exprsAll_eq_flatMap (ss : List Stmt) : exprsAll ss = ss.flatMap exprs := by
  induction ss with
  | nil => rfl
  | cons s ss ih => rw [exprsAll, ih, List.flatMap_cons]

end Stmt

/-- The expressions of a member and everything inside them. -/
def Member.exprs : Member → List Expr
  | .attribute decl _ => decl.declarators.flatMap Declarator.exprs
  | .method decl _ => decl.body.stmts.flatMap Stmt.exprs
  | .ctor decl _ => decl.body.stmts.flatMap Stmt.exprs
  | .dtor decl _ => decl.body.stmts.flatMap Stmt.exprs

/-- The expressions of a program and everything inside them. -/
def Program.exprs (p : Program) : List Expr :=
  p.classes.flatMap fun c => c.members.flatMap Member.exprs

/-- The expression is spelled by some of the tokens. -/
def Expr.SpelledAmong (us : List TokenKind) (e : Expr) : Prop := ∃ vs, e.Spelled vs ∧ vs ⊆ us

/-- What is spelled among some tokens is spelled among more. -/
theorem Expr.SpelledAmong.mono {us vs : List TokenKind} {e : Expr} (h : e.SpelledAmong us)
    (hsub : us ⊆ vs) : e.SpelledAmong vs := by
  obtain ⟨ks, hks, hin⟩ := h
  exact ⟨ks, hks, List.Subset.trans hin hsub⟩

/-- The parts of an expression are spelled among its tokens. -/
theorem Expr.Spelled.among_of_mem_parts {e s : Expr} {us : List TokenKind} (h : e.Spelled us)
    (hs : s ∈ e.parts) : s.SpelledAmong us := by
  rw [parts_eq] at hs
  rcases List.mem_cons.mp hs with rfl | hin
  · exact ⟨us, h, List.Subset.refl us⟩
  · obtain ⟨c, hc, hsc⟩ := List.mem_flatMap.mp hin
    obtain ⟨vs, hvs, hsub⟩ := h.exists_of_mem_children hc
    have hsize := sizeOf_lt_of_mem_children hc
    exact (hvs.among_of_mem_parts hsc).mono hsub
termination_by sizeOf e

/-- So are the expressions of a declared name. -/
theorem Declarator.Spelled.among {d : Declarator} {us : List TokenKind} (h : d.Spelled us)
    {e : Expr} (he : e ∈ d.exprs) : e.SpelledAmong us := by
  cases h with
  | plain => cases he
  | init hinit => exact (hinit.among_of_mem_parts he).mono fun k hk => by simp [hk]

private theorem Declarator.among_of_separated {ds : List Declarator} {us : List TokenKind}
    (h : Separated .comma Declarator.Spelled us ds) {e : Expr}
    (he : e ∈ ds.flatMap Declarator.exprs) : e.SpelledAmong us := by
  obtain ⟨d, hd, hin⟩ := List.mem_flatMap.mp he
  obtain ⟨vs, hvs, hsub⟩ := h.exists_of_mem hd
  exact (hvs.among hin).mono hsub

/-- So are those of a statement. -/
theorem Stmt.Spelled.among {s : Stmt} {us : List TokenKind} (h : s.Spelled us) {e : Expr}
    (he : e ∈ s.exprs) : e.SpelledAmong us := by
  cases h with
  | breakLoop | continueLoop | returnNothing => cases he
  | declare _ hds => exact (Declarator.among_of_separated hds he).mono fun k hk => by simp [hk]
  | assign _ _ htarget hvalue =>
    rcases List.mem_append.mp he with hin | hin
    · exact (htarget.among_of_mem_parts hin).mono fun k hk => by simp [hk]
    · exact (hvalue.among_of_mem_parts hin).mono fun k hk => by simp [hk]
  | call _ _ hinvocation =>
    exact (hinvocation.among_of_mem_parts he).mono fun k hk => by simp [hk]
  | returnValue hvalue => exact (hvalue.among_of_mem_parts he).mono fun k hk => by simp [hk]
  | ifThen hcondition hthen =>
    rcases List.mem_append.mp he with hin | hin
    · exact (hcondition.among_of_mem_parts hin).mono fun k hk => by simp [hk]
    · exact (hthen.among hin).mono fun k hk => by simp [hk]
  | ifElse hcondition _ hthen helse =>
    rcases List.mem_append.mp he with hin | hin
    · rcases List.mem_append.mp hin with hin | hin
      · exact (hcondition.among_of_mem_parts hin).mono fun k hk => by simp [hk]
      · exact (hthen.among hin).mono fun k hk => by simp [hk]
    · exact (helse.among hin).mono fun k hk => by simp [hk]
  | loop hfirst hlast hbody =>
    rcases List.mem_append.mp he with hin | hin
    · rcases List.mem_append.mp hin with hin | hin
      · exact (hfirst.among_of_mem_parts hin).mono fun k hk => by simp [hk]
      · exact (hlast.among_of_mem_parts hin).mono fun k hk => by simp [hk]
    · exact (hbody.among hin).mono fun k hk => by simp [hk]
  | @block ks stmts _ hstmts =>
    rw [exprs, exprsAll_eq_flatMap] at he
    obtain ⟨s, hs, hin⟩ := List.mem_flatMap.mp he
    obtain ⟨vs, hvs, hsub⟩ := hstmts.exists_of_mem hs
    have hsize := List.sizeOf_lt_of_mem hs
    exact (hvs.among hin).mono fun k hk => by simp [hsub hk]
termination_by sizeOf s

/-- So are those of a block. -/
theorem Block.Spelled.among {b : Block} {us : List TokenKind} (h : b.Spelled us) {e : Expr}
    (he : e ∈ b.stmts.flatMap Stmt.exprs) : e.SpelledAmong us := by
  cases h with
  | mk hstmts =>
    obtain ⟨s, hs, hin⟩ := List.mem_flatMap.mp he
    obtain ⟨vs, hvs, hsub⟩ := hstmts.exists_of_mem hs
    exact (hvs.among hin).mono fun k hk => by simp [hsub hk]

/-- So are those of a member. -/
theorem Member.Spelled.among {m : Member} {us : List TokenKind} (h : m.Spelled us) {e : Expr}
    (he : e ∈ m.exprs) : e.SpelledAmong us := by
  rcases h with ⟨_, _, hds⟩ | ⟨_, _, _, hbody⟩ | ⟨_, hbody⟩ | hbody
  · exact (Declarator.among_of_separated hds he).mono fun k hk => by simp [hk]
  · exact (hbody.among he).mono fun k hk => by simp [hk]
  · exact (hbody.among he).mono fun k hk => by simp [hk]
  · exact (hbody.among he).mono fun k hk => by simp [hk]

/-- Every expression of a spelled program is spelled by some of the tokens. -/
theorem Program.Spelled.among {p : Program} {us : List TokenKind} (h : p.Spelled us) {e : Expr}
    (he : e ∈ p.exprs) : e.SpelledAmong us := by
  obtain ⟨c, hc, hclass⟩ := List.mem_flatMap.mp he
  obtain ⟨m, hm, hmember⟩ := List.mem_flatMap.mp hclass
  obtain ⟨ks, hks, hsub⟩ := Repeated.exists_of_mem h hc
  cases hks with
  | mk _ hmembers =>
    obtain ⟨ms, hms, hsub'⟩ := hmembers.exists_of_mem hm
    refine ((hms.among hmember).mono hsub').mono fun k hk => hsub ?_
    simp [hk]

/-! ## Reading back -/

/-- A text is parsed just if it is scanned to tokens that are parsed. -/
theorem parseSource_eq_ok_iff {source : String} {p : Program} :
    parseSource source = .ok p ↔
      ∃ ts, tokenize source = .ok ts ∧ Program.ofTokens ts = .ok p := by
  rw [parseSource, scanSource]
  cases htokens : tokenize source with
  | error e => exact ⟨nofun, nofun⟩
  | ok ts =>
    change (Program.ofTokens ts).mapError Failure.ofSyntax = .ok p ↔ _
    cases hparse : Program.ofTokens ts with
    | error e => exact ⟨nofun, by rintro ⟨_, ⟨⟩, h⟩; rw [hparse] at h; cases h⟩
    | ok q =>
      refine ⟨fun h => ⟨ts, rfl, ?_⟩, ?_⟩
      · rw [hparse, Except.ok.inj h]
      · rintro ⟨_, ⟨⟩, h⟩
        rw [← hparse, h]
        rfl

namespace Expr

/-- An expression of a parsed program is written as a text of tokens that spell it. -/
theorem rendersSpelling_of_parseSource {source : String} {p : Program} {e : Expr}
    (hp : parseSource source = .ok p) (he : e ∈ p.exprs) (hr : e.Rereads) : e.RendersSpelling := by
  obtain ⟨ts, htokens, hparse⟩ := parseSource_eq_ok_iff.mp hp
  obtain ⟨-, hlexical⟩ := kindsBeforeEof_of_tokenize htokens
  obtain ⟨us, hus, hsub⟩ := (Program.spelled_of_ofTokens hparse).among he
  exact e.rendersSpelling hus (fun k hk => hlexical k (hsub hk)) hr

end Expr

/-- What a parser yields from the kinds of tokens it reads from the tokens, up to spans. -/
theorem Parser.exists_of_yields {α : Type} [Spanned α] {p : Parser α} {a : α} {ts : List Token}
    (hstrips : Parser.Strips p p)
    (h : ∀ rest, rest.head?.getD .eof = .eof → p.Yields (Token.kindsBeforeEof ts) a rest) :
    ∃ b c, p (.ofTokens ts) = .ok (b, c) ∧ c.ahead = [] ∧ Spanned.spanless b = a := by
  have hstripped := hstrips (.ofTokens ts)
  rw [Cursor.spanless_ofTokens] at hstripped
  obtain ⟨rest, hkinds, hrest⟩ := Token.exists_kinds_eq_append ts
  have hyields := h rest hrest
  rw [Parser.Yields, Parser.GoesOn, ← hkinds, hstripped] at hyields
  cases hparse : p (.ofTokens ts) with
  | error err =>
    rw [hparse] at hyields
    cases hyields
  | ok answer =>
    obtain ⟨b, c⟩ := answer
    rw [hparse] at hyields
    have hanswer := Prod.mk.inj (Except.ok.inj hyields)
    refine ⟨b, c, rfl, ?_, hanswer.1⟩
    have htokens : c.tokens.map Token.kind = rest := by
      simpa [Cursor.spanless, Token.spanless, Cursor.ofKinds, Function.comp_def] using
        congrArg (fun c => c.tokens.map Token.kind) hanswer.2
    refine Cursor.ahead_of_eof ?_
    rw [← hrest, ← htokens, List.head?_map, Cursor.current]
    cases c.tokens <;> rfl

/-- A token list that spells an expression is parsed to it. -/
theorem Expr.exists_expression_of_spelled {e : Expr} {ts : List Token}
    (h : e.Spelled (Token.kindsBeforeEof ts)) {bound : Nat} (hbound : ts.length ≤ bound) :
    ∃ e' c, Parser.expression bound (.ofTokens ts) = .ok (e', c) ∧ c.ahead = [] ∧
      e'.spanless = e.spanless := by
  have hlength := (Token.length_kindsBeforeEof_le ts).trans hbound
  exact Parser.exists_of_yields (Parser.strips_expression bound)
    fun _ hrest => Parser.yields_expression h hlength (Parser.stops_of_end 0 hrest)

/-- A class with one attribute that has the text as its initial value. -/
def initializerText (text : String) : String := "class A \x7b int x := " ++ text ++ "; \x7d"

/-- The class with one attribute that has the expression as its initial value. -/
def initializerProgram (e : Expr) : Program :=
  let decl : AttributeDecl :=
    ⟨false, false, .primitive .int .nowhere, [⟨"x", some e, .nowhere⟩]⟩
  ⟨[⟨⟨"A", .nowhere⟩, none, [.attribute decl .nowhere], .nowhere⟩], .nowhere⟩

/-- The kinds of the tokens of the class, around those of the initial value. -/
def initializerKinds (us : List TokenKind) : List TokenKind :=
  .keyword .kwClass :: .identifier "A" :: .symbol .lbrace :: .keyword .kwInt ::
    .identifier "x" :: .symbol .assign :: (us ++ [.symbol .semi, .symbol .rbrace])

/-- The text with an initial value is scanned to its tokens if that value is. -/
theorem emits_initializerText {text : String} {us : List TokenKind}
    (h : ∀ rest, EndsExpr rest → Scanner.Emits text.toList us rest) :
    Scanner.Emits (initializerText text).toList (initializerKinds us) [] := by
  have hfront : "class A \x7b int x := ".toList = Keyword.kwClass.spelling.toList ++
      ' ' :: ("A".toList ++ ' ' :: '\x7b' :: ' ' :: (Keyword.kwInt.spelling.toList ++
        ' ' :: ("x".toList ++ ' ' :: (':' :: ['='] ++ [' '])))) := by decide +kernel
  have hblank : ∀ cs, EndsExpr (' ' :: cs) := endsExpr_cons rfl (by decide)
  have hsemi : ∀ cs, EndsExpr (';' :: cs) := endsExpr_cons rfl (by decide)
  have hassign : ∀ rest, Heads (.sign .assign) ':' ['='] rest := fun rest => ⟨rfl, rfl⟩
  have hA : IsName "A" := ⟨⟨'A', [], rfl, rfl, nofun⟩, rfl⟩
  have hx : IsName "x" := ⟨⟨'x', [], rfl, rfl, nofun⟩, rfl⟩
  have hopen : ('\x7b', Symbol.lbrace) ∈ punctuation := by decide
  have hbefore : ∀ rest, Scanner.Emits "class A \x7b int x := ".toList
      [.keyword .kwClass, .identifier "A", .symbol .lbrace, .keyword .kwInt, .identifier "x",
        .symbol .assign] rest := by
    intro rest
    have hdeclarator := (Scanner.emits_name hx (hblank _).word).append
      ((Scanner.emits_lexeme (hassign _) rfl).append (@Scanner.emits_nil rest).blank).blank
    have hattribute := (Scanner.emits_keyword .kwInt (hblank _).word).append hdeclarator.blank
    rw [hfront]
    exact (Scanner.emits_keyword .kwClass (hblank _).word).append
      ((Scanner.emits_name hA (hblank _).word).append (hattribute.blank.sign hopen).blank).blank
  have hback : "; \x7d".toList = [';', ' ', '\x7d'] := rfl
  have hclose : Scanner.Emits "; \x7d".toList [.symbol .semi, .symbol .rbrace] [] := by
    rw [hback]
    exact (Scanner.emits_nil.sign (by decide)).blank.sign (by decide)
  have hends : EndsExpr ("; \x7d".toList ++ []) := by
    rw [hback]
    exact hsemi _
  unfold initializerText
  rw [String.toList_append, String.toList_append, List.append_assoc]
  exact (hbefore _).append ((h _ hends).append hclose)

/-- These tokens spell the program with that initial value. -/
theorem spelled_initializerProgram {e : Expr} {us : List TokenKind} (h : e.Spelled us) :
    (initializerProgram e).Spelled (initializerKinds us) := by
  have hdeclarators : Separated .comma Declarator.Spelled (.identifier "x" :: .symbol .assign :: us)
      [⟨"x", some e, .nowhere⟩] := .one (.init h)
  have hmodifiers : Parser.Modifiers.Spelled [] ⟨false, false⟩ :=
    ⟨nofun, by simp, by simp⟩
  have hmember := @Member.Spelled.attribute _ _ _ _ _ _ _ .nowhere hmodifiers
    (@WrittenType.Spelled.primitive .int .nowhere) hdeclarators
  have hclass := @ClassDecl.Spelled.mk _ _ ⟨"A", .nowhere⟩ none _ .nowhere .none
    (.cons hmember .nil)
  have hprogram : (initializerProgram e).Spelled _ := .cons hclass .nil
  simpa [initializerKinds, Primitive.word] using hprogram

namespace Expr

/-- Every expression of a parsed program in which nothing is lost when it is written reads back:
its source form is scanned to tokens, all of which are parsed as an expression equal to it up to
spans, and as the initial value of an attribute it gives the attribute this initial value. -/
theorem render_parses_back {source : String} {p : Program} {e : Expr}
    (hp : parseSource source = .ok p) (he : e ∈ p.exprs) (hr : e.Rereads) :
    (∃ ts, tokenize e.render = .ok ts ∧ ∀ bound, ts.length ≤ bound →
      ∃ e' c, Parser.expression bound (.ofTokens ts) = .ok (e', c) ∧ c.ahead = [] ∧
        e'.spanless = e.spanless) ∧
    ∃ q, parseSource (initializerText e.render) = .ok q ∧
      q.spanless = (initializerProgram e).spanless := by
  obtain ⟨us, hus, hemits⟩ := (rendersSpelling_of_parseSource hp he hr).tokens
  refine ⟨?_, ?_⟩
  · obtain ⟨ts, htokens, hkinds⟩ := (hemits [] ⟨nofun, nofun⟩).tokens 0
    have hscanned := kindsBeforeEof_of_tokenize htokens
    have hbefore : Token.kindsBeforeEof ts = us :=
      List.append_cancel_right (hscanned.1.symm.trans hkinds)
    exact ⟨ts, htokens, fun bound hbound => exists_expression_of_spelled (hbefore ▸ hus) hbound⟩
  · have hinitializer := emits_initializerText fun rest hrest => hemits rest (hrest.leaves e)
    obtain ⟨ts, htokens, hkinds⟩ := hinitializer.tokens 0
    have hscanned := kindsBeforeEof_of_tokenize htokens
    have hbefore : Token.kindsBeforeEof ts = initializerKinds us :=
      List.append_cancel_right (hscanned.1.symm.trans hkinds)
    obtain ⟨q, hparse, hq⟩ :=
      Program.exists_ofTokens_of_spelled (hbefore ▸ spelled_initializerProgram hus)
    exact ⟨q, parseSource_eq_ok_iff.mpr ⟨ts, htokens, hparse⟩, hq⟩

end Expr

/-- `-a.f("\n", 2.50)[0] * 3` as the initial value of an attribute. -/
def signedProductText : String := initializerText "-a.f(\"\\n\", 2.50)[0] * 3"

/-- The expression, where it stands in the text. -/
def signedProduct : Expr :=
  let call : Expr := .call (.ident "a" ⟨20, 21⟩) "f"
    [.string "\n" ⟨24, 28⟩, .float (.finite false 5629499534213120 (-51)) ⟨30, 34⟩] ⟨20, 35⟩
  .binary .mul (.unary .neg (.index call (.int 0 ⟨36, 37⟩) ⟨20, 38⟩) ⟨19, 38⟩)
    (.int 3 ⟨41, 42⟩) ⟨19, 42⟩

/-- The program of the text. -/
def signedProductProgram : Program :=
  let decl : AttributeDecl :=
    ⟨false, false, .primitive .int ⟨10, 13⟩, [⟨"x", some signedProduct, ⟨14, 42⟩⟩]⟩
  ⟨[⟨⟨"A", ⟨6, 7⟩⟩, none, [.attribute decl ⟨10, 43⟩], ⟨0, 45⟩⟩], ⟨0, 45⟩⟩

/-- The tokens of the text. -/
def signedProductTokens : List Token := [
  ⟨.keyword .kwClass, ⟨0, 5⟩⟩, ⟨.identifier "A", ⟨6, 7⟩⟩, ⟨.symbol .lbrace, ⟨8, 9⟩⟩,
  ⟨.keyword .kwInt, ⟨10, 13⟩⟩, ⟨.identifier "x", ⟨14, 15⟩⟩, ⟨.symbol .assign, ⟨16, 18⟩⟩,
  ⟨.symbol .minus, ⟨19, 20⟩⟩, ⟨.identifier "a", ⟨20, 21⟩⟩, ⟨.symbol .dot, ⟨21, 22⟩⟩,
  ⟨.identifier "f", ⟨22, 23⟩⟩, ⟨.symbol .lparen, ⟨23, 24⟩⟩, ⟨.string "\"\\n\"", ⟨24, 28⟩⟩,
  ⟨.symbol .comma, ⟨28, 29⟩⟩, ⟨.float "2.50", ⟨30, 34⟩⟩, ⟨.symbol .rparen, ⟨34, 35⟩⟩,
  ⟨.symbol .lbracket, ⟨35, 36⟩⟩, ⟨.integer "0", ⟨36, 37⟩⟩, ⟨.symbol .rbracket, ⟨37, 38⟩⟩,
  ⟨.symbol .star, ⟨39, 40⟩⟩, ⟨.integer "3", ⟨41, 42⟩⟩, ⟨.symbol .semi, ⟨42, 43⟩⟩,
  ⟨.symbol .rbrace, ⟨44, 45⟩⟩, ⟨.eof, ⟨45, 45⟩⟩]

/-- If scanning a text gives tokens at all, it has not failed. -/
theorem tokenize_eq_ok {source : String} {ts : List Token}
    (h : (tokenize source).toOption = some ts) : tokenize source = .ok ts := by
  cases htokens : tokenize source with
  | error e =>
    rw [htokens] at h
    cases h
  | ok us =>
    rw [htokens] at h
    exact congrArg Except.ok (Option.some.inj h)

theorem tokenize_signedProductText : tokenize signedProductText = .ok signedProductTokens :=
  tokenize_eq_ok (by decide +kernel)

theorem ofTokens_signedProductTokens :
    Program.ofTokens signedProductTokens = .ok signedProductProgram := rfl

/-- A selection with arguments behind a sign reads back, though its literals are written anew. -/
theorem signedProduct_parses_back :
    parseSource signedProductText = .ok signedProductProgram ∧
    signedProduct ∈ signedProductProgram.exprs ∧ signedProduct.Rereads ∧
    (∃ ts, tokenize signedProduct.render = .ok ts ∧ ∀ bound, ts.length ≤ bound →
      ∃ e' c, Parser.expression bound (.ofTokens ts) = .ok (e', c) ∧ c.ahead = [] ∧
        e'.spanless = signedProduct.spanless) ∧
    ∃ q, parseSource (initializerText signedProduct.render) = .ok q ∧
      q.spanless = (initializerProgram signedProduct).spanless := by
  have hp : parseSource signedProductText = .ok signedProductProgram :=
    parseSource_eq_ok_iff.mpr ⟨_, tokenize_signedProductText, ofTokens_signedProductTokens⟩
  have hin : signedProduct ∈ signedProductProgram.exprs := by
    simp [Program.exprs, signedProductProgram, Member.exprs, Declarator.exprs, Expr.self_mem_parts]
  have hrereads : signedProduct.Rereads := by decide +kernel
  exact ⟨hp, hin, hrereads, Expr.render_parses_back hp hin hrereads⟩

end ClassCheck
