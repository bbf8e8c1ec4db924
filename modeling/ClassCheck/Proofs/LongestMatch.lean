import ClassCheck.Proofs.MatchLengths

/-!
# The scanner takes the longest match

At the front of a text the scanner takes the longest text of any sort, be it a token or trivia.
Trivia are skipped one after the other until none are in front. What comes then is a token if some
sort matches, and an error if none does or if a comment is opened and never closed. An error takes a
part of the text with it, so that the scanner can go on behind it.
-/

namespace ClassCheck

open scoped Computability

/-! ## Matches at the front of a text -/

/-- A text of the sort stands at the front of another, and no text of any sort there is longer. -/
structure Pattern.Longest (P : Pattern) (text lexeme : List Char) : Prop where
  /-- The text is of the sort. -/
  matched : lexeme ∈ P.language
  /-- It stands at the front. -/
  front : lexeme <+: text
  /-- None is longer. -/
  longest : ∀ Q : Pattern, ∀ v ∈ Q.language, v <+: text → v.length ≤ lexeme.length

namespace Lexeme

/-- A comment is opened at the front of a text and never closed. -/
def OpensComment (text : List Char) : Prop :=
  ∃ body, text = '/' :: '*' :: body ∧ ¬ ['*', '/'] <:+: body

/-- From one text to the rest of it trivia are skipped, each of them the longest match of all. -/
inductive Skips : List Char → List Char → Prop
  /-- Nothing is skipped. -/
  | done (text : List Char) : Skips text text
  /-- Blanks or a comment are skipped, and then more. -/
  | piece {P : Pattern} {piece text rest : List Char} : P.isTrivia = true →
      P.Longest (piece ++ text) piece → Skips text rest → Skips (piece ++ text) rest

/-- The part of a text that an error takes, and the fault it reports. -/
inductive Faulty : List Char → List Char → LexicalFault → Prop
  /-- A comment that is never closed is taken up to the end of the text. -/
  | comment {text : List Char} : OpensComment text →
      Faulty text text (.unexpected (String.ofList text))
  /-- A string that is not closed is taken with all of its complete items. -/
  | string {items rest : List Char} : items ∈ Pattern.stringItem∗ →
      (∀ v ∈ Pattern.stringItem∗, v <+: items ++ rest → v.length ≤ items.length) →
      Faulty ('"' :: (items ++ rest)) ('"' :: items) .unterminatedString
  /-- Of all else only the first character is taken. -/
  | character {c : Char} {rest : List Char} : c ≠ '"' → ¬ OpensComment (c :: rest) →
      Faulty (c :: rest) [c] (.unexpected (String.ofList [c]))

/-! ## Skipped trivia -/

/-- Trivia are skipped up to where none starts. -/
theorem Skips.of_triviaLength (cs : List Char) :
    Skips cs (cs.drop (triviaLength cs)) ∧ triviumLength (cs.drop (triviaLength cs)) = 0 := by
  by_cases hnone : triviumLength cs = 0
  · rw [triviaLength_of_triviumLength hnone, List.drop_zero]
    exact ⟨.done cs, hnone⟩
  · obtain ⟨P, piece, rest, rfl, hP, hmatched, hlength⟩ := Pattern.exists_trivium hnone
    have hpos := List.length_pos_of_ne_nil (Pattern.ne_nil_of_mem hmatched)
    have hless : rest.length < (piece ++ rest).length := by
      rw [List.length_append]
      omega
    obtain ⟨hskips, hend⟩ := Skips.of_triviaLength rest
    rw [triviaLength_eq, if_neg hnone, ← hlength, List.drop_left, List.drop_length_add_append]
    refine ⟨.piece hP ⟨hmatched, List.prefix_append _ _, fun Q v hv hfront => ?_⟩ hskips, hend⟩
    rw [hlength]
    cases hQ : Q.isTrivia with
    | true => exact Pattern.length_le_of_trivia hQ hv hfront
    | false => exact Pattern.length_le_triviumLength hQ hv hfront hnone
termination_by cs.length

/-- Where the scanner finds no trivia, no sort of trivia matches. -/
theorem not_trivia_of_triviumLength {cs : List Char} (h : triviumLength cs = 0) {P : Pattern}
    (hP : P.isTrivia = true) {v : List Char} (hv : v ∈ P.language) : ¬ v <+: cs := by
  intro hfront
  have hlength := Pattern.length_le_of_trivia hP hv hfront
  have hpos := List.length_pos_of_ne_nil (Pattern.ne_nil_of_mem hv)
  omega

/-- If no length of a comment is found, it is not closed. -/
theorem not_closed_of_commentLength? {cs : List Char} (h : commentLength? cs = none) :
    ¬ ['*', '/'] <:+: cs := by
  induction cs with
  | nil => decide
  | cons c cs ih =>
    by_cases hclose : ['*', '/'] <+: c :: cs
    · obtain ⟨rest, hrest⟩ := hclose
      rw [← hrest] at h
      cases h
    · rw [commentLength?_cons hclose, Option.map_eq_none_iff] at h
      exact fun hin => (List.infix_cons_iff.mp hin).elim hclose (ih h)

/-! ## Lexemes -/

section

variable {shape : Shape} {c : Char} {more rest : List Char} (h : Heads shape c more rest)

include h

/-- A lexeme is in the language of its sort. -/
theorem Heads.mem_language {P : Pattern} (hP : shape.pattern? = some P) :
    c :: more ∈ P.language := by
  have hmem := @Pattern.tail_mem c (more ++ rest) P (by rw [h.tail]; exact hP)
  rwa [h.tail, List.take_left] at hmem

/-- A comment that is opened where there are no trivia is never closed. -/
theorem Heads.opensComment (hopen : c = '/' ∧ (more ++ rest).head? = some '*') :
    OpensComment (c :: (more ++ rest)) := by
  obtain ⟨rfl, hstar⟩ := hopen
  obtain ⟨body, hbody⟩ : ∃ body, more ++ rest = '*' :: body :=
    ⟨_, List.eq_cons_of_mem_head? hstar⟩
  have hnone := h.noTrivia
  rw [hbody, triviumLength_slash_star] at hnone
  refine ⟨body, by rw [hbody], not_closed_of_commentLength? ?_⟩
  cases hlength : commentLength? body with
  | none => rfl
  | some n =>
    rw [hlength] at hnone
    cases hnone

/-- Where a comment is opened and never closed, the lexeme is that comment. -/
theorem Heads.shape_of_opensComment (hopen : OpensComment (c :: (more ++ rest))) :
    shape = .openComment := by
  obtain ⟨body, hbody, -⟩ := hopen
  obtain ⟨rfl, hrest⟩ := List.cons.inj hbody
  have htail := h.tail
  rw [hrest] at htail
  exact (Prod.mk.inj htail).1.symm

/-- Where the lexeme is no comment, every match in front is a token, and not longer than it. -/
theorem Heads.length_le (hopen : ¬ OpensComment (c :: (more ++ rest))) {Q : Pattern}
    {v : List Char} (hv : v ∈ Q.language) (hfront : v <+: c :: (more ++ rest)) :
    shape.pattern? ≠ none ∧ v.length ≤ (c :: more).length := by
  obtain ⟨d, v, rfl⟩ := List.exists_cons_of_ne_nil (Pattern.ne_nil_of_mem hv)
  obtain ⟨rfl, hbehind⟩ := List.cons_prefix_cons.mp hfront
  cases hQ : Q.isTrivia with
  | true => exact absurd hfront (not_trivia_of_triviumLength h.noTrivia hQ hv)
  | false =>
    obtain ⟨hshape, hlength⟩ := Pattern.length_le_of_token hQ hv hbehind fun hslash =>
      hopen (h.opensComment hslash)
    rw [h.tail] at hshape hlength
    exact ⟨hshape, Nat.succ_le_succ hlength⟩

/-- No text of any sort at the front is longer than the lexeme there. -/
theorem Heads.longest {P : Pattern} (hP : shape.pattern? = some P) :
    ∀ Q : Pattern, ∀ v ∈ Q.language, v <+: c :: (more ++ rest) → v.length ≤ (c :: more).length := by
  intro Q v hv hfront
  refine (h.length_le (fun hopen => ?_) hv hfront).2
  rw [h.shape_of_opensComment hopen] at hP
  cases hP

/-- A lexeme is no token where no sort matches or a comment is never closed. -/
theorem Heads.pattern?_eq_none_iff :
    shape.pattern? = none ↔
      (∀ P : Pattern, ∀ v ∈ P.language, v <+: c :: (more ++ rest) → v = []) ∨
        OpensComment (c :: (more ++ rest)) := by
  constructor
  · intro hnone
    by_cases hopen : OpensComment (c :: (more ++ rest))
    · exact .inr hopen
    · exact .inl fun P v hv hfront => absurd hnone (h.length_le hopen hv hfront).1
  · rintro (hnone | hopen)
    · cases hP : shape.pattern? with
      | none => rfl
      | some P => cases hnone P _ (h.mem_language hP) ⟨rest, rfl⟩
    · rw [h.shape_of_opensComment hopen]
      rfl

end

/-! ## Tokens and errors -/

/-- The lexemes of no sort are those that are no tokens. -/
theorem exists_fault_iff (shape : Shape) (text : String) :
    (∃ fault, classify shape text = .error fault) ↔ shape.pattern? = none := by
  cases shape with
  | word =>
    unfold classify
    cases Keyword.ofSpelling? text <;> exact ⟨nofun, nofun⟩
  | integer | float | string | sign => exact ⟨nofun, nofun⟩
  | openString | openComment | stray => exact ⟨fun _ => rfl, fun _ => ⟨_, rfl⟩⟩

section

variable {shape : Shape} {c : Char} {more rest : List Char} (h : Heads shape c more rest)

include h

/-- A reserved word is never taken for a name. -/
theorem Heads.keyword {kind : TokenKind}
    (hkind : classify shape (String.ofList (c :: more)) = .ok kind) {word : Keyword}
    (hword : c :: more ∈ Pattern.language (.keyword word)) : kind = .keyword word := by
  have hname := Pattern.mem_identifier_of_keyword hword
  have hstart := (Pattern.length_le_of_word hname (List.prefix_refl more)).1
  have htail := h.tail
  rw [Pattern.tail_of_isWordStart hstart] at htail
  obtain rfl := (Prod.mk.inj htail).1
  have hspelling : String.ofList (c :: more) = word.spelling := by
    rw [show c :: more = word.spelling.toList from hword, String.ofList_toList]
  rw [hspelling, classify, word.ofSpelling?_spelling] at hkind
  cases hkind
  rfl

/-- A token is the longest match, of the sort that its kind says. -/
theorem Heads.token {kind : TokenKind}
    (hkind : classify shape (String.ofList (c :: more)) = .ok kind) :
    ∃ P, kind.pattern? = some P ∧ P.Longest (c :: (more ++ rest)) (c :: more) := by
  have hspelling := (h.spelling hkind).2
  cases shape with
  | word =>
    have hlongest := h.longest rfl
    unfold classify at hkind
    dsimp only at hkind
    split at hkind
    · cases hkind
      refine ⟨_, rfl, ?_, ⟨rest, rfl⟩, hlongest⟩
      rw [Pattern.language, Pattern.mem_fixed_iff, ← String.toList_ofList (l := c :: more)]
      exact congrArg String.toList hspelling.symm
    · cases hkind
      exact ⟨_, rfl, h.mem_language rfl, ⟨rest, rfl⟩, hlongest⟩
  | integer | float | string | sign =>
    cases hkind
    exact ⟨_, rfl, h.mem_language rfl, ⟨rest, rfl⟩, h.longest rfl⟩
  | openString | openComment | stray => cases hkind

/-- An error takes the part of the text that its fault calls for. -/
theorem Heads.faulty {fault : LexicalFault}
    (hfault : classify shape (String.ofList (c :: more)) = .error fault) :
    Faulty (c :: (more ++ rest)) (c :: more) fault := by
  have hnone : (Lexeme.tail c (more ++ rest)).1.pattern? = none := by
    rw [h.tail]
    exact (exists_fault_iff _ _).mp ⟨fault, hfault⟩
  obtain ⟨rfl, htail⟩ | ⟨hslash, hstar, htail⟩ | ⟨hquote, htail⟩ := Pattern.tail_fault_cases hnone
  · obtain ⟨rfl, hlength⟩ := Prod.mk.inj (h.tail.symm.trans htail)
    cases hfault
    have hitems := Pattern.take_itemsLength_mem (more ++ rest)
    rw [← hlength, List.take_left] at hitems
    refine .string hitems fun v hv hfront => ?_
    rw [hlength]
    exact Pattern.length_le_itemsLength hv hfront
  · have hopen := h.opensComment ⟨hslash, hstar⟩
    obtain ⟨rfl, hlength⟩ := Prod.mk.inj (h.tail.symm.trans htail)
    cases hfault
    -- The comment takes the whole text, so that nothing is left behind it.
    obtain rfl : rest = [] := by
      rw [List.length_append] at hlength
      exact List.length_eq_zero_iff.mp (by omega)
    rw [List.append_nil] at hopen ⊢
    exact .comment hopen
  · obtain ⟨rfl, hlength⟩ := Prod.mk.inj (h.tail.symm.trans htail)
    obtain rfl := List.length_eq_zero_iff.mp hlength
    cases hfault
    exact .character hquote fun hopen => nomatch h.shape_of_opensComment hopen

end

end Lexeme

/-! ## Answers of the scanner -/

namespace Scanner

open Lexeme

/-- A lexeme is answered with an error just if it is of no sort. -/
theorem Answer.exists_error_iff (shape : Shape) (offset : Nat) (text : List Char) :
    (∃ e, ofLexeme shape offset text = .error e) ↔ shape.pattern? = none := by
  rw [← exists_fault_iff shape (String.ofList text), ofLexeme]
  cases classify shape (String.ofList text) with
  | ok kind =>
    constructor
    · rintro ⟨e, he⟩
      cases he
    · rintro ⟨fault, hfault⟩
      cases hfault
  | error fault => exact iff_of_true ⟨_, rfl⟩ ⟨_, rfl⟩

/-- A step reads the lexeme behind the trivia. -/
theorem next_of_heads {s : Scanner} {shape : Shape} {c : Char} {more rest : List Char}
    (hs : s.skipTrivia.rest = c :: (more ++ rest)) (h : Heads shape c more rest) :
    s.next = (Answer.ofLexeme shape s.skipTrivia.offset (c :: more),
      ⟨s.skipTrivia.offset + Text.byteLength (c :: more), rest⟩) := by
  have hnext := next_lexeme .nil h s.skipTrivia.offset
  have hstill : s.skipTrivia.skipTrivia = s.skipTrivia :=
    skipTrivia_of_triviumLength (by rw [hs]; exact h.noTrivia)
  rw [List.nil_append, ← hs, next, hstill] at hnext
  exact hnext

end Scanner

/-- Wherever a scanner stands, if anything is left behind the trivia, the next answer is as follows.
Trivia are skipped one by one, each the longest match of all, until none match. A token is the
longest text of any sort in front of the rest, of the sort that its kind says, and a reserved word
wins over a name. An error is answered just where no sort matches or a comment is opened and never
closed. It takes the whole text with such a comment, the quote and the longest run of complete items
with a string that is not closed, and one character with anything else. -/
theorem scanner_takes_longest_match (s : Scanner) (hleft : s.skipTrivia.rest ≠ []) :
    Lexeme.Skips s.rest s.skipTrivia.rest ∧
    (∀ P : Pattern, P.isTrivia = true → ∀ v ∈ P.language, ¬ v <+: s.skipTrivia.rest) ∧
    ∃ (answer : Scanner.Answer) (lexeme rest : List Char),
      (TokenStream.mk none s false).next = (answer, ⟨none, ⟨answer.span.stop, rest⟩, false⟩) ∧
      answer.span = ⟨s.skipTrivia.offset, s.skipTrivia.offset + Text.byteLength lexeme⟩ ∧
      s.skipTrivia.rest = lexeme ++ rest ∧ lexeme ≠ [] ∧
      (∀ t, answer = .ok t →
        (∃ P, t.kind.pattern? = some P ∧ P.Longest s.skipTrivia.rest lexeme) ∧
        t.kind.spelling = String.ofList lexeme ∧
        ∀ word, lexeme ∈ Pattern.language (.keyword word) → t.kind = .keyword word) ∧
      ((∃ e, answer = .error e) ↔
        (∀ P : Pattern, ∀ v ∈ P.language, v <+: s.skipTrivia.rest → v = []) ∨
          Lexeme.OpensComment s.skipTrivia.rest) ∧
      ∀ e, answer = .error e → Lexeme.Faulty s.skipTrivia.rest lexeme e.fault := by
  obtain ⟨hskips, hnone⟩ := Lexeme.Skips.of_triviaLength s.rest
  refine ⟨hskips, fun P hP v hv => Lexeme.not_trivia_of_triviumLength hnone hP hv, ?_⟩
  replace hnone : Lexeme.triviumLength s.skipTrivia.rest = 0 := hnone
  obtain ⟨c, cs, hcs⟩ := List.exists_cons_of_ne_nil hleft
  rw [hcs] at hnone
  obtain ⟨shape, more, rest, rfl, hheads⟩ := Lexeme.exists_heads hnone
  have hspan := Scanner.Answer.span_ofLexeme shape s.skipTrivia.offset (c :: more)
  rw [hcs]
  refine ⟨.ofLexeme shape s.skipTrivia.offset (c :: more), c :: more, rest, ?_, hspan, rfl,
    List.cons_ne_nil _ _, fun t ht => ?_, ?_, fun e he => ?_⟩
  · have heof := TokenStream.isEof_ofLexeme hheads s.skipTrivia.offset
    rw [TokenStream.next, Scanner.next_of_heads hcs hheads, hspan]
    dsimp only
    rw [heof]
    rfl
  · have hkind := (Scanner.Answer.eq_of_ofLexeme_eq_ok ht).1
    exact ⟨hheads.token hkind, (hheads.spelling hkind).2, fun word => hheads.keyword hkind⟩
  · rw [Scanner.Answer.exists_error_iff, hheads.pattern?_eq_none_iff]
  · exact hheads.faulty (Scanner.Answer.eq_of_ofLexeme_eq_error he)

/-- A comment, a number and the start of an exponent without digits. -/
def unfinishedExponent : Scanner :=
  ⟨0, ['/', '*', '*', '/', '2', '.', '5', 'e', '-']⟩

theorem skipTrivia_unfinishedExponent :
    unfinishedExponent.skipTrivia = ⟨4, ['2', '.', '5', 'e', '-']⟩ := by
  have hcomment : Lexeme.Trivia ['/', '*', '*', '/'] :=
    @Lexeme.Trivia.block [] [] (by decide) .nil
  exact (Scanner.skipTrivia_append hcomment 0 _).trans (Scanner.skipTrivia_of_triviumLength rfl)

/-- The number backs off to its fraction, which is the longest match. -/
theorem unfinishedExponent_backs_off :
    unfinishedExponent.skipTrivia.rest ≠ [] ∧
    (TokenStream.mk none unfinishedExponent false).next =
      (.ok ⟨.float "2.5", ⟨4, 7⟩⟩, ⟨none, ⟨7, ['e', '-']⟩, false⟩) ∧
    Pattern.Longest .float ['2', '.', '5', 'e', '-'] ['2', '.', '5'] := by
  have hleft : unfinishedExponent.skipTrivia.rest ≠ [] := by
    rw [skipTrivia_unfinishedExponent]
    exact List.cons_ne_nil _ _
  have hnext : (TokenStream.mk none unfinishedExponent false).next =
      (.ok ⟨.float "2.5", ⟨4, 7⟩⟩, ⟨none, ⟨7, ['e', '-']⟩, false⟩) := by
    rw [TokenStream.next, Scanner.next, skipTrivia_unfinishedExponent]
    rfl
  obtain ⟨-, -, answer, lexeme, rest, hanswer, -, htext, -, htoken, -⟩ :=
    scanner_takes_longest_match unfinishedExponent hleft
  rw [hnext] at hanswer
  cases hanswer
  rw [skipTrivia_unfinishedExponent] at htext htoken
  obtain ⟨⟨P, hP, hlongest⟩, -⟩ := htoken _ rfl
  cases hP
  have hsplit : lexeme ++ ['e', '-'] = ['2', '.', '5'] ++ ['e', '-'] := htext.symm
  obtain rfl := List.append_cancel_right hsplit
  exact ⟨hleft, hnext, hlongest⟩

end ClassCheck
