import ClassCheck.Proofs.LayoutChecking
import ClassCheck.Proofs.LayoutParsing
import ClassCheck.Proofs.Scanning
import ClassCheck.Verdict

/-!
# Layout never influences the verdict

Where the tokens of a program stand makes no difference to whether it parses and passes the
check, nor to what is said if it does not. In particular this holds of source texts that differ
only in their blanks and comments, since these have the same tokens in the same order.
-/

namespace ClassCheck

open Lexeme

/-- A comment may end with the text and need not end its line. -/
def Trailing (w : List Char) : Prop := w = [] ∨ ∃ body, '\n' ∉ body ∧ w = '#' :: body

/-- Two texts have the same lexemes in the same order, and differ only in the trivia around them. -/
inductive Relaid : List Char → List Char → Prop
  /-- Both texts are at their end. -/
  | last {w w' : List Char} : Trailing w → Trailing w' → Relaid w w'
  /-- Both texts start with some trivia. -/
  | trivia {w w' r r' : List Char} : Trivia w → Trivia w' → Relaid r r' →
      Relaid (w ++ r) (w' ++ r')
  /-- Both texts start with the same lexeme. -/
  | lexeme {shape : Shape} {c : Char} {more r r' : List Char} : Heads shape c more r →
      Heads shape c more r' → Relaid r r' → Relaid (c :: (more ++ r)) (c :: (more ++ r'))

/-! ## Tokens -/

namespace Scanner

private theorem kinds_trailing {w : List Char} (h : Trailing w) (offset : Nat) :
    (Scanner.mk offset w).kinds = .ok [.eof] := by
  have hrest : (Scanner.mk offset w).skipTrivia.rest = [] := by
    rcases h with rfl | ⟨body, hbody, rfl⟩
    · exact List.drop_nil
    · rw [skipTrivia, triviaLength_last_comment hbody, drop_rest, List.drop_succ_cons,
        List.drop_length]
  rw [kinds, tokens_of_empty hrest]
  rfl

/-- Texts that differ only in their trivia have the same tokens, spans aside. -/
theorem kinds_of_relaid {cs cs' : List Char} (h : Relaid cs cs') (offset offset' : Nat) :
    (Scanner.mk offset cs).kinds = (Scanner.mk offset' cs').kinds := by
  induction h generalizing offset offset' with
  | last hw hw' => rw [kinds_trailing hw, kinds_trailing hw']
  | trivia hw hw' _ ih =>
    rw [kinds, tokens_trivia hw, kinds, tokens_trivia hw']
    exact ih _ _
  | lexeme hl hl' _ ih =>
    rw [kinds_lexeme hl, kinds_lexeme hl']
    split
    · rfl
    · exact congrArg _ (ih _ _)

end Scanner

/-! ## Programs -/

namespace Program

/-- Tokens of the same kinds fail to parse for the same reason, or spell the same program. -/
theorem ofTokens_of_kinds {ts ts' : List Token} (h : ts.map Token.kind = ts'.map Token.kind) :
    (∃ e e', ofTokens ts = .error e ∧ ofTokens ts' = .error e' ∧ e.fault = e'.fault) ∨
      ∃ p p', ofTokens ts = .ok p ∧ ofTokens ts' = .ok p' ∧ p.spanless = p'.spanless := by
  have hlength : ts.length = ts'.length := by simpa using congrArg List.length h
  have hsame : ((ofTokens ts).map spanless).mapError SyntaxError.spanless =
      ((ofTokens ts').map spanless).mapError SyntaxError.spanless := by
    rw [ofTokens_spanless, ofTokens_spanless, h, hlength]
  match hp : ofTokens ts, hp' : ofTokens ts' with
  | .error e, .error e' =>
    rw [hp, hp'] at hsame
    have hstripped : e.spanless = e'.spanless := by injection hsame
    exact .inl ⟨e, e', rfl, rfl, (SyntaxError.mk.inj hstripped).1⟩
  | .ok p, .ok p' =>
    rw [hp, hp'] at hsame
    exact .inr ⟨p, p', rfl, rfl, Except.ok.inj hsame⟩
  | .error e, .ok p' | .ok p, .error e' =>
    rw [hp, hp'] at hsame
    cases hsame

/-- Programs that are equal up to spans pass together or break the same rule. -/
theorem check_of_spanless {p p' : Program} (h : p.spanless = p'.spanless) :
    p.check = .ok () ∧ p'.check = .ok () ∨
      ∃ v v', p.check = .error v ∧ p'.check = .error v' ∧ v.spanless = v'.spanless := by
  have hsame : p.check.mapError Violation.spanless = p'.check.mapError Violation.spanless := by
    rw [← check_spanless, ← check_spanless, h]
  match hp : p.check, hp' : p'.check with
  | .error v, .error v' =>
    rw [hp, hp'] at hsame
    exact .inr ⟨v, v', rfl, rfl, Except.error.inj hsame⟩
  | .ok (), .ok () => exact .inl ⟨rfl, rfl⟩
  | .error v, .ok () | .ok (), .error v' =>
    rw [hp, hp'] at hsame
    cases hsame

end Program

/-- The failure without its span. -/
def Failure.spanless : Failure → Failure
  | .lexical message _ => .lexical message .nowhere
  | .grammar message _ => .grammar message .nowhere
  | .violation v => .violation v.spanless
  | .unreadable cause => .unreadable cause

/-- Check the program of a token list. -/
def checkTokens (ts : List Token) : Except Failure Unit := do
  let program ← parseTokens ts
  program.check.mapError .violation

/-- Token lists of the same kinds get the same answer, places aside. -/
theorem checkTokens_of_kinds {ts ts' : List Token} (h : ts.map Token.kind = ts'.map Token.kind) :
    (checkTokens ts).mapError Failure.spanless = (checkTokens ts').mapError Failure.spanless := by
  unfold checkTokens parseTokens
  obtain ⟨e, e', he, he', hfault⟩ | ⟨p, p', hp, hp', hspanless⟩ := Program.ofTokens_of_kinds h
  · rw [he, he']
    exact congrArg (fun fault => Except.error (Failure.grammar fault.message .nowhere)) hfault
  · rw [hp, hp']
    change (p.check.mapError Failure.violation).mapError Failure.spanless =
      (p'.check.mapError Failure.violation).mapError Failure.spanless
    obtain ⟨hv, hv'⟩ | ⟨v, v', hv, hv', hsame⟩ := Program.check_of_spanless hspanless
    · rw [hv, hv']
    · rw [hv, hv']
      exact congrArg (fun v => Except.error (Failure.violation v)) hsame

/-- Source texts that differ only in their trivia get the same verdict, spans aside. -/
theorem checkSource_of_relaid {source source' : String}
    (h : Relaid source.toList source'.toList) :
    (checkSource source).mapError Failure.spanless =
      (checkSource source').mapError Failure.spanless := by
  have hkinds : (Scanner.ofText source).kinds = (Scanner.ofText source').kinds :=
    Scanner.kinds_of_relaid h 0 0
  have hcheck : ∀ text : String,
      checkSource text = ((tokenize text).mapError .ofLexical) >>= checkTokens := by
    intro text
    rw [checkSource, parseSource, scanSource]
    cases tokenize text <;> rfl
  rw [hcheck, hcheck, tokenize, tokenize]
  unfold Scanner.kinds at hkinds
  match ht : (Scanner.ofText source).tokens, ht' : (Scanner.ofText source').tokens with
  | .error e, .error e' =>
    rw [ht, ht'] at hkinds
    exact congrArg (fun fault => Except.error (Failure.lexical fault.message .nowhere))
      (Except.error.inj hkinds)
  | .ok ts, .ok ts' =>
    rw [ht, ht'] at hkinds
    exact checkTokens_of_kinds (Except.ok.inj hkinds)
  | .error e, .ok ts' | .ok ts, .error e' =>
    rw [ht, ht'] at hkinds
    cases hkinds

/-- Layout never influences the verdict: tokens of the same kinds fail to parse with the same
message or spell programs equal up to spans, and programs equal up to spans pass together or fail
with violations of the same kind and text. So two texts that differ only in their blanks and
comments get the same verdict, spans aside. -/
theorem verdict_regardless_of_layout :
    (∀ ts ts' : List Token, ts.map Token.kind = ts'.map Token.kind →
      (∃ e e', Program.ofTokens ts = .error e ∧ Program.ofTokens ts' = .error e' ∧
        e.fault.message = e'.fault.message) ∨
      ∃ p p', Program.ofTokens ts = .ok p ∧ Program.ofTokens ts' = .ok p' ∧
        p.spanless = p'.spanless) ∧
    (∀ p p' : Program, p.spanless = p'.spanless →
      p.check = .ok () ∧ p'.check = .ok () ∨
      ∃ v v', p.check = .error v ∧ p'.check = .error v' ∧ v.kindName = v'.kindName ∧
        v.message = v'.message) ∧
    ∀ source source' : String, Relaid source.toList source'.toList →
      (checkSource source).mapError Failure.spanless =
        (checkSource source').mapError Failure.spanless := by
  refine ⟨fun ts ts' h => ?_, fun p p' h => ?_, fun source source' h => checkSource_of_relaid h⟩
  · refine (Program.ofTokens_of_kinds h).imp_left ?_
    rintro ⟨e, e', he, he', hfault⟩
    exact ⟨e, e', he, he', congrArg SyntaxFault.message hfault⟩
  · refine (Program.check_of_spanless h).imp_right ?_
    rintro ⟨v, v', hv, hv', hsame⟩
    refine ⟨v, v', hv, hv', ?_, ?_⟩
    · rw [← v.kindName_spanless, hsame, v'.kindName_spanless]
    · rw [← v.message_spanless, hsame, v'.message_spanless]

/-- A class that extends a class which is not there, with tokens of this length. -/
def orphanTokens (length : Nat) : List Token :=
  let kinds : List TokenKind := [.keyword .kwClass, .identifier "A", .keyword .kwExtends,
    .identifier "B", .symbol .lbrace, .symbol .rbrace, .eof]
  kinds.mapIdx fun i kind => ⟨kind, ⟨i * length, (i + 1) * length⟩⟩

/-- The same class as a tree with this span everywhere. -/
def orphan (span : Span) : Program := ⟨[⟨⟨"A", span⟩, some ⟨"B", span⟩, [], span⟩], span⟩

/-- The same class on one line. -/
def orphanLine : List Char :=
  ['c', 'l', 'a', 's', 's', ' ', 'A', ' ', 'e', 'x', 't', 'e', 'n', 'd', 's', ' ', 'B', '\x7b',
    '\x7d']

/-- The same class on two lines with a comment on each. -/
def orphanLines : List Char :=
  ['c', 'l', 'a', 's', 's', '/', '*', 'A', '*', '/', 'A', '\n', 'e', 'x', 't', 'e', 'n', 'd', 's',
    '\t', 'B', ' ', '\x7b', '\x7d', '#', 'B', '?']

theorem relaid_orphanLines : Relaid orphanLine orphanLines := by
  have hblank : Trivia [' '] := .blank rfl .nil
  have hcomment : Trivia ['/', '*', 'A', '*', '/'] := @Trivia.block ['A'] [] (by decide) .nil
  have hend : Relaid [] ['#', 'B', '?'] := .last (.inl rfl) (.inr ⟨['B', '?'], by decide, rfl⟩)
  have hclose := @Relaid.lexeme (.sign .rbrace) '\x7d' [] _ _ ⟨rfl, rfl⟩ ⟨rfl, rfl⟩ hend
  have hopen := @Relaid.lexeme (.sign .lbrace) '\x7b' [] _ _ ⟨rfl, rfl⟩ ⟨rfl, rfl⟩ hclose
  have hparent := @Relaid.lexeme .word 'B' [] _ _ ⟨rfl, rfl⟩ ⟨rfl, rfl⟩ (.trivia .nil hblank hopen)
  have hextends := @Relaid.lexeme .word 'e' ['x', 't', 'e', 'n', 'd', 's'] _ _ ⟨rfl, rfl⟩ ⟨rfl, rfl⟩
    (.trivia hblank (.blank (c := '\t') rfl .nil) hparent)
  have hname := @Relaid.lexeme .word 'A' [] _ _ ⟨rfl, rfl⟩ ⟨rfl, rfl⟩
    (.trivia hblank (.blank (c := '\n') rfl .nil) hextends)
  exact @Relaid.lexeme .word 'c' ['l', 'a', 's', 's'] _ _ ⟨rfl, rfl⟩ ⟨rfl, rfl⟩
    (.trivia hblank hcomment hname)

/-- The class is rejected alike wherever its tokens stand and however its text is laid out. -/
theorem orphan_rejected_regardless_of_layout :
    (∃ p p', Program.ofTokens (orphanTokens 1) = .ok p ∧
      Program.ofTokens (orphanTokens 8) = .ok p' ∧ p.spanless = p'.spanless) ∧
    (∃ v v', (orphan ⟨0, 0⟩).check = .error v ∧ (orphan ⟨5, 9⟩).check = .error v' ∧
      v.kindName = v'.kindName ∧ v.message = v'.message) ∧
    (checkSource (String.ofList orphanLine)).mapError Failure.spanless =
      (checkSource (String.ofList orphanLines)).mapError Failure.spanless := by
  obtain ⟨hparse, hcheck, hsource⟩ := verdict_regardless_of_layout
  refine ⟨?_, ?_, ?_⟩
  · have hok : (Program.ofTokens (orphanTokens 1)).toOption.isSome = true := by decide +kernel
    refine (hparse (orphanTokens 1) (orphanTokens 8) (by decide)).resolve_left ?_
    rintro ⟨e, e', he, -⟩
    rw [he] at hok
    cases hok
  · refine (hcheck (orphan ⟨0, 0⟩) (orphan ⟨5, 9⟩) rfl).resolve_left ?_
    rintro ⟨hok, -⟩
    cases hok
  · apply hsource
    rw [String.toList_ofList, String.toList_ofList]
    exact relaid_orphanLines

end ClassCheck
