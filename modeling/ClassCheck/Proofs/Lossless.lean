import ClassCheck.Proofs.Layout
import ClassCheck.Proofs.Slices
import Mathlib.Data.List.Chain
import Mathlib.Data.List.TakeWhile

/-!
# The scanner loses nothing

Every text falls into lexemes and the trivia between them. A scanner that is asked again and again
answers to one lexeme after the other, be it a token or an error, and then with the end of the
text; so the answers, together with the trivia between their spans, make up the whole text.
-/

namespace ClassCheck

namespace Lexeme

/-! ## How far lexemes reach -/

private theorem runLength_le (p : Char → Bool) (cs : List Char) : runLength p cs ≤ cs.length :=
  (List.takeWhile_sublist p).length_le

/-- Length of the sign before the digits of an exponent. -/
def signLength (cs : List Char) : Nat :=
  if cs.head? = some '+' ∨ cs.head? = some '-' then 1 else 0

/-- The exponent behind its mark: a sign, or none, and at least one digit. -/
theorem exponentLength_cons (mark : Char) (cs : List Char) :
    exponentLength (mark :: cs) =
      if (mark = 'e' ∨ mark = 'E') ∧ runLength Char.isDigit (cs.drop (signLength cs)) ≠ 0 then
        1 + signLength cs + runLength Char.isDigit (cs.drop (signLength cs))
      else 0 := by
  by_cases hplus : ∃ tail, cs = '+' :: tail
  · obtain ⟨tail, rfl⟩ := hplus
    have hsigned : signLength ('+' :: tail) = 1 := rfl
    rw [exponentLength, hsigned, List.drop_succ_cons, List.drop_zero]
    cases hrun : runLength Char.isDigit tail <;> simp [hrun]
  by_cases hminus : ∃ tail, cs = '-' :: tail
  · obtain ⟨tail, rfl⟩ := hminus
    have hsigned : signLength ('-' :: tail) = 1 := rfl
    rw [exponentLength, hsigned, List.drop_succ_cons, List.drop_zero]
    cases hrun : runLength Char.isDigit tail <;> simp [hrun]
  have hnone : signLength cs = 0 := by
    refine if_neg ?_
    rintro (hhead | hhead)
    · exact hplus ⟨_, List.eq_cons_of_mem_head? hhead⟩
    · exact hminus ⟨_, List.eq_cons_of_mem_head? hhead⟩
  rw [exponentLength, hnone, List.drop_zero]
  · cases hrun : runLength Char.isDigit cs <;> simp [hrun]
  · exact fun tail h => hplus ⟨tail, h⟩
  · exact fun tail h => hminus ⟨tail, h⟩

private theorem exponentLength_le (cs : List Char) : exponentLength cs ≤ cs.length := by
  cases cs with
  | nil => exact Nat.le_refl 0
  | cons mark cs =>
    have hrun := runLength_le Char.isDigit (cs.drop (signLength cs))
    rw [List.length_drop] at hrun
    rw [exponentLength_cons, List.length_cons]
    split
    · omega
    · exact Nat.zero_le _

/-- A number with a point behind its first digits. -/
theorem numberTail_point {cs rest : List Char}
    (h : cs.drop (runLength Char.isDigit cs) = '.' :: rest) :
    numberTail cs = (.float, runLength Char.isDigit cs + 1 + runLength Char.isDigit rest +
      exponentLength (rest.drop (runLength Char.isDigit rest))) := by
  unfold numberTail
  dsimp only
  rw [h]
  rfl

/-- A number without a point. -/
theorem numberTail_plain {cs : List Char}
    (h : (cs.drop (runLength Char.isDigit cs)).head? ≠ some '.') :
    numberTail cs =
      let exponent := exponentLength (cs.drop (runLength Char.isDigit cs))
      (if exponent = 0 then .integer else .float, runLength Char.isDigit cs + exponent) := by
  unfold numberTail
  dsimp only
  split
  · rename_i rest hrest
    rw [hrest] at h
    exact absurd rfl h
  · split
    · rename_i hexponent
      rw [hexponent]
      rfl
    · rename_i n hexponent
      rw [hexponent]
      rfl

private theorem numberTail_le (cs : List Char) : (numberTail cs).2 ≤ cs.length := by
  have hwhole := runLength_le Char.isDigit cs
  have hlength := List.length_drop (i := runLength Char.isDigit cs) (l := cs)
  by_cases hpoint : (cs.drop (runLength Char.isDigit cs)).head? = some '.'
  · obtain ⟨rest, hrest⟩ : ∃ rest, cs.drop (runLength Char.isDigit cs) = '.' :: rest :=
      ⟨_, List.eq_cons_of_mem_head? hpoint⟩
    have hfraction := runLength_le Char.isDigit rest
    have hexponent := exponentLength_le (rest.drop (runLength Char.isDigit rest))
    rw [hrest, List.length_cons] at hlength
    rw [List.length_drop] at hexponent
    rw [numberTail_point hrest]
    dsimp only
    omega
  · have hexponent := exponentLength_le (cs.drop (runLength Char.isDigit cs))
    rw [numberTail_plain hpoint]
    dsimp only
    omega

private theorem itemsLength_le (cs : List Char) : itemsLength cs ≤ cs.length := by
  fun_induction itemsLength cs <;> simp_all

private theorem stringTail_le (cs : List Char) : (stringTail cs).2 ≤ cs.length := by
  have hitems := itemsLength_le cs
  unfold stringTail
  dsimp only
  split
  · rename_i rest hrest
    have hlength := congrArg List.length hrest
    rw [List.length_drop, List.length_cons] at hlength
    dsimp only
    omega
  · exact hitems

private theorem signTail_le (c : Char) (cs : List Char) : (signTail c cs).2 ≤ cs.length := by
  have hsingle : (singleTail c).2 = 0 := by
    unfold singleTail
    split <;> rfl
  unfold signTail
  split
  · exact hsingle.le
  · split
    · exact Nat.le_refl _
    · split
      · simp
      · rw [hsingle]
        exact Nat.zero_le _

/-- A lexeme ends within the text. -/
theorem tail_le (c : Char) (cs : List Char) : (tail c cs).2 ≤ cs.length := by
  unfold tail
  split
  · exact stringTail_le cs
  · split
    · exact runLength_le isWordChar cs
    · split
      · exact numberTail_le cs
      · exact signTail_le c cs

/-- What does not start with trivia starts with a lexeme. -/
theorem exists_heads {c : Char} {cs : List Char} (h : triviumLength (c :: cs) = 0) :
    ∃ shape more rest, cs = more ++ rest ∧ Heads shape c more rest := by
  have hsplit := List.take_append_drop (tail c cs).2 cs
  refine ⟨(tail c cs).1, cs.take (tail c cs).2, cs.drop (tail c cs).2, hsplit.symm, ?_, ?_⟩
  · rwa [hsplit]
  · rw [hsplit, List.length_take_of_le (tail_le c cs)]

/-! ## How far trivia reach -/

/-- A comment that is closed ends with the first mark that closes it. -/
theorem exists_of_commentLength? {cs : List Char} {n : Nat} (h : commentLength? cs = some n) :
    ∃ body rest, cs = body ++ '*' :: '/' :: rest ∧ ¬ ['*', '/'] <:+: body ++ ['*'] := by
  induction cs generalizing n with
  | nil => cases h
  | cons c cs ih =>
    by_cases hclose : ['*', '/'] <+: c :: cs
    · obtain ⟨rest, hrest⟩ := hclose
      exact ⟨[], rest, hrest.symm, by decide⟩
    · rw [commentLength?_cons hclose] at h
      obtain ⟨m, hm, -⟩ := Option.map_eq_some_iff.mp h
      obtain ⟨body, rest, rfl, hbody⟩ := ih hm
      refine ⟨c :: body, rest, rfl, fun hin => ?_⟩
      rcases List.infix_cons_iff.mp hin with hfront | hin
      · -- A closing mark at the front of the comment would have been its end.
        have hopens : c :: (body ++ ['*']) <+: c :: (body ++ '*' :: '/' :: rest) :=
          ⟨'/' :: rest, by simp⟩
        exact hclose (hfront.trans hopens)
      · exact hbody hin

/-- Every text starts with trivia, and then comes a lexeme or the end of the text. -/
theorem exists_trivia (cs : List Char) :
    ∃ w rest, cs = w ++ rest ∧ Trivia w ∧
      (Trailing rest ∨ ∃ c more, rest = c :: more ∧ triviumLength rest = 0) := by
  cases cs with
  | nil => exact ⟨[], [], rfl, .nil, .inl (.inl rfl)⟩
  | cons c cs =>
    by_cases hblank : isBlank c = true
    · obtain ⟨w, rest, hcs, hw, hrest⟩ := exists_trivia cs
      exact ⟨c :: w, rest, by rw [hcs, List.cons_append], .blank hblank hw, hrest⟩
    by_cases hhash : c = '#'
    · subst hhash
      have hsplit := List.takeWhile_append_dropWhile (p := (· ≠ '\n')) (l := cs)
      have hbody : '\n' ∉ cs.takeWhile (· ≠ '\n') := fun hin => by
        simpa using List.mem_takeWhile_imp hin
      cases hline : cs.dropWhile (· ≠ '\n') with
      | nil =>
        rw [hline, List.append_nil] at hsplit
        exact ⟨[], '#' :: cs, rfl, .nil, .inl (.inr ⟨cs, hsplit ▸ hbody, rfl⟩)⟩
      | cons d ds =>
        have hd : d = '\n' := by
          have hhead := List.head?_dropWhile_not (· ≠ '\n') cs
          rw [hline] at hhead
          simpa using hhead
        subst hd
        rw [hline] at hsplit
        have hless : ds.length < cs.length + 1 := by
          have hlength := congrArg List.length hsplit
          rw [List.length_append, List.length_cons] at hlength
          omega
        obtain ⟨w, rest, hds, hw, hrest⟩ := exists_trivia ds
        refine ⟨'#' :: (cs.takeWhile (· ≠ '\n') ++ '\n' :: w), rest, ?_, .line hbody hw, hrest⟩
        rw [List.cons_append, List.append_assoc, List.cons_append, ← hds, hsplit]
    by_cases hopen : ∃ comment, c = '/' ∧ cs = '*' :: comment
    · obtain ⟨comment, rfl, rfl⟩ := hopen
      cases hlength : commentLength? comment with
      | none =>
        refine ⟨[], '/' :: '*' :: comment, rfl, .nil, .inr ⟨_, _, rfl, ?_⟩⟩
        rw [triviumLength_slash_star, hlength]
        rfl
      | some n =>
        obtain ⟨body, behind, rfl, hbody⟩ := exists_of_commentLength? hlength
        have hless : behind.length < (body ++ '*' :: '/' :: behind).length + 2 := by
          rw [List.length_append, List.length_cons, List.length_cons]
          omega
        obtain ⟨w, rest, hbehind, hw, hrest⟩ := exists_trivia behind
        refine ⟨'/' :: '*' :: (body ++ '*' :: '/' :: w), rest, ?_, .block hbody hw, hrest⟩
        rw [hbehind]
        simp
    · refine ⟨[], c :: cs, rfl, .nil, .inr ⟨c, cs, rfl, ?_⟩⟩
      rw [triviumLength, if_neg hblank, if_neg hhash]
      exact fun comment hc hcs => hopen ⟨comment, hc, hcs⟩
termination_by cs.length

end Lexeme

/-! ## Spellings -/

/-- How a token of this kind is written; the end of the text is not written at all. -/
def TokenKind.spelling : TokenKind → String
  | .keyword word => word.spelling
  | .symbol sign => sign.spelling
  | .identifier text | .integer text | .float text | .string text => text
  | .eof => ""

namespace Lexeme

/-- A sign of two characters is spelled by them. -/
theorem spelling_of_pairSymbol? {c d : Char} {sign : Symbol} (h : pairSymbol? c d = some sign) :
    sign.spelling = String.ofList [c, d] := by
  unfold pairSymbol? at h
  split at h <;> cases h <;> rfl

/-- A sign of one character is spelled by it. -/
theorem spelling_of_singleSymbol? {c : Char} {sign : Symbol} (h : singleSymbol? c = some sign) :
    sign.spelling = String.ofList [c] := by
  unfold singleSymbol? at h
  split at h <;> cases h <;> rfl

private theorem spelling_of_singleTail {c : Char} {more : List Char} {sign : Symbol}
    (h : singleTail c = (.sign sign, more.length)) :
    sign.spelling = String.ofList (c :: more) := by
  unfold singleTail at h
  split at h
  · rename_i found hfound
    obtain ⟨hsign, hlength⟩ := Prod.mk.inj h
    cases hsign
    rw [List.length_eq_zero_iff.mp hlength.symm]
    exact spelling_of_singleSymbol? hfound
  · cases h

/-- A sign is spelled by the characters that the scanner takes for it. -/
theorem spelling_of_signTail {c : Char} {more rest : List Char} {sign : Symbol}
    (h : signTail c (more ++ rest) = (.sign sign, more.length)) :
    sign.spelling = String.ofList (c :: more) := by
  unfold signTail at h
  split at h
  · exact spelling_of_singleTail h
  · rename_i d ds hds
    split at h
    · cases h
    · split at h
      · rename_i found hfound
        obtain ⟨hsign, hlength⟩ := Prod.mk.inj h
        cases hsign
        obtain ⟨x, rfl⟩ := List.length_eq_one_iff.mp hlength.symm
        cases hds
        exact spelling_of_pairSymbol? hfound
      · exact spelling_of_singleTail h

/-- A sign is spelled as it stands in the text. -/
theorem Heads.spelling_sign {c : Char} {more rest : List Char} {sign : Symbol}
    (h : Heads (.sign sign) c more rest) : sign.spelling = String.ofList (c :: more) := by
  have htail := h.tail
  unfold Lexeme.tail at htail
  split at htail
  · unfold stringTail at htail
    dsimp only at htail
    split at htail <;> cases htail
  · split at htail
    · cases htail
    · split at htail
      · unfold numberTail at htail
        dsimp only at htail
        split at htail
        · cases htail
        · split at htail <;> cases htail
      · exact spelling_of_signTail htail

/-- The token of a lexeme is spelled as the lexeme stands in the text. -/
theorem Heads.spelling {shape : Shape} {c : Char} {more rest : List Char} {k : TokenKind}
    (h : Heads shape c more rest) (hk : classify shape (String.ofList (c :: more)) = .ok k) :
    k ≠ .eof ∧ k.spelling = String.ofList (c :: more) := by
  cases shape with
  | word =>
    unfold classify at hk
    dsimp only at hk
    split at hk
    · rename_i word hword
      cases hk
      have hspelling := List.find?_some hword
      exact ⟨nofun, of_decide_eq_true hspelling⟩
    · cases hk
      exact ⟨nofun, rfl⟩
  | integer | float | string =>
    cases hk
    exact ⟨nofun, rfl⟩
  | sign sign =>
    cases hk
    exact ⟨nofun, h.spelling_sign⟩
  | openString | openComment | stray => cases hk

end Lexeme

/-! ## Answers -/

namespace Scanner

open Lexeme

/-- What a scanner answers: a token, or a lexeme that is none. -/
abbrev Answer := Except LexicalError Token

/-- Where the answer stands. -/
def Answer.span : Answer → Span
  | .ok t => t.span
  | .error e => e.span

/-- The answer to a lexeme of this shape and text at an offset. -/
def Answer.ofLexeme (shape : Shape) (offset : Nat) (text : List Char) : Answer :=
  let span : Span := ⟨offset, offset + Text.byteLength text⟩
  match classify shape (String.ofList text) with
  | .ok kind => .ok ⟨kind, span⟩
  | .error fault => .error ⟨fault, span⟩

/-- An answer to a lexeme spans its text. -/
theorem Answer.span_ofLexeme (shape : Shape) (offset : Nat) (text : List Char) :
    (ofLexeme shape offset text).span = ⟨offset, offset + Text.byteLength text⟩ := by
  unfold ofLexeme
  cases classify shape (String.ofList text) <;> rfl

/-- An answer that is a token is of the kind that the lexeme is classified as. -/
theorem Answer.eq_of_ofLexeme_eq_ok {shape : Shape} {offset : Nat} {text : List Char} {t : Token}
    (h : ofLexeme shape offset text = .ok t) :
    classify shape (String.ofList text) = .ok t.kind ∧
      t.span = ⟨offset, offset + Text.byteLength text⟩ := by
  unfold ofLexeme at h
  cases hkind : classify shape (String.ofList text) with
  | error fault =>
    rw [hkind] at h
    cases h
  | ok kind =>
    rw [hkind] at h
    cases h
    exact ⟨rfl, rfl⟩

/-- An answer that is an error has the fault that the lexeme is classified with. -/
theorem Answer.eq_of_ofLexeme_eq_error {shape : Shape} {offset : Nat} {text : List Char}
    {e : LexicalError} (h : ofLexeme shape offset text = .error e) :
    classify shape (String.ofList text) = .error e.fault := by
  unfold ofLexeme at h
  cases hkind : classify shape (String.ofList text) with
  | error fault =>
    rw [hkind] at h
    cases h
    rfl
  | ok kind =>
    rw [hkind] at h
    cases h

/-- The answers that a scanner gives to the lexemes up to some place, and the scanner there. -/
inductive Reads : Scanner → List Answer → Scanner → Prop
  /-- No lexeme is read. -/
  | done (s : Scanner) : Reads s [] s
  /-- Trivia are skipped, a lexeme is read, and then more. -/
  | lexeme {shape : Shape} {c : Char} {w more rest : List Char} {offset : Nat}
      {answers : List Answer} {s : Scanner} : Trivia w → Heads shape c more rest →
      Reads ⟨offset + Text.byteLength (w ++ c :: more), rest⟩ answers s →
      Reads ⟨offset, w ++ c :: (more ++ rest)⟩
        (.ofLexeme shape (offset + Text.byteLength w) (c :: more) :: answers) s

/-- Only trivia are left. -/
def AtEnd (s : Scanner) : Prop := ∃ w t, s.rest = w ++ t ∧ Trivia w ∧ Trailing t

/-- A scanner reads lexemes up to the end of the text. -/
theorem exists_reads (s : Scanner) : ∃ answers s', Reads s answers s' ∧ s'.AtEnd := by
  obtain ⟨offset, cs⟩ := s
  obtain ⟨w, rest, rfl, hw, hrest | ⟨c, more, rfl, hlexeme⟩⟩ := exists_trivia cs
  · exact ⟨[], _, .done _, w, rest, rfl, hw, hrest⟩
  · obtain ⟨shape, more, rest, rfl, hheads⟩ := exists_heads hlexeme
    have hless : rest.length < (w ++ c :: (more ++ rest)).length := by
      simp only [List.length_append, List.length_cons]
      omega
    obtain ⟨answers, s', hreads, hend⟩ :=
      exists_reads ⟨offset + Text.byteLength (w ++ c :: more), rest⟩
    exact ⟨_, s', .lexeme hw hheads hreads, hend⟩
termination_by s.rest.length

/-! ## Steps of the scanner -/

private theorem skipTrivia_trailing {t : List Char} (ht : Trailing t) (offset : Nat) :
    (Scanner.mk offset t).skipTrivia = ⟨offset + Text.byteLength t, []⟩ := by
  rcases ht with rfl | ⟨body, hbody, rfl⟩
  · simp [skipTrivia, drop]
  · rw [skipTrivia, triviaLength_last_comment hbody]
    simp [drop]

/-- At the end all that is left is skipped. -/
theorem AtEnd.skipTrivia {s : Scanner} (h : s.AtEnd) :
    s.skipTrivia = ⟨s.offset + Text.byteLength s.rest, []⟩ := by
  obtain ⟨w, t, hrest, hw, ht⟩ := h
  obtain ⟨offset, rest⟩ := s
  dsimp only at hrest
  subst hrest
  rw [skipTrivia_append hw, skipTrivia_trailing ht, Text.byteLength_append, Nat.add_assoc]

/-- At the end the scanner answers with the end of file, and stays there. -/
theorem AtEnd.next {s : Scanner} (h : s.AtEnd) :
    s.next = (.ok ⟨.eof, .point (s.offset + Text.byteLength s.rest)⟩,
      ⟨s.offset + Text.byteLength s.rest, []⟩) := by
  rw [Scanner.next, h.skipTrivia]
  rfl

/-- A scanner skips trivia and answers to the lexeme behind them. -/
theorem next_lexeme {shape : Shape} {c : Char} {w more rest : List Char} (hw : Trivia w)
    (h : Heads shape c more rest) (offset : Nat) :
    (Scanner.mk offset (w ++ c :: (more ++ rest))).next =
      (Answer.ofLexeme shape (offset + Text.byteLength w) (c :: more),
        ⟨offset + Text.byteLength (w ++ c :: more), rest⟩) := by
  have hskip : (Scanner.mk offset (w ++ c :: (more ++ rest))).skipTrivia =
      ⟨offset + Text.byteLength w, c :: (more ++ rest)⟩ :=
    (skipTrivia_append hw offset _).trans (skipTrivia_of_triviumLength h.noTrivia)
  have hafter : (Scanner.mk (offset + Text.byteLength w) (c :: (more ++ rest))).drop
      (more.length + 1) = ⟨offset + Text.byteLength (w ++ c :: more), rest⟩ := by
    simp [drop, Nat.add_assoc]
  have htext : (c :: (more ++ rest)).take (more.length + 1) = c :: more := by simp
  rw [next, hskip, lexeme]
  dsimp only
  rw [h.tail, hafter, htext, Text.byteLength_append, ← Nat.add_assoc, Answer.ofLexeme]
  dsimp only
  cases classify shape (String.ofList (c :: more)) <;> rfl

/-- At the end there is no token but the end of file. -/
theorem AtEnd.tokens {s : Scanner} (h : s.AtEnd) :
    s.tokens = .ok [⟨.eof, .point (s.offset + Text.byteLength s.rest)⟩] := by
  rw [tokens_of_empty (by rw [h.skipTrivia]), h.skipTrivia]

/-- The tokens of a text are its answers up to the first error. -/
theorem Reads.tokens {s s' : Scanner} {answers : List Answer} (h : Reads s answers s') :
    s.tokens = (answers.mapM id).bind fun ts => s'.tokens.map (ts ++ ·) := by
  induction h with
  | done s =>
    rw [List.mapM_nil]
    cases s.tokens <;> rfl
  | @lexeme shape c w more rest offset answers s' hw hheads _ ih =>
    rw [Text.byteLength_append, ← Nat.add_assoc] at ih
    rw [tokens_trivia hw, tokens_lexeme hheads, List.mapM_cons, Answer.ofLexeme]
    dsimp only
    rw [ih]
    cases classify shape (String.ofList (c :: more)) with
    | error fault => rfl
    | ok kind =>
      dsimp only [id, bind, Except.bind]
      cases answers.mapM id with
      | error e => rfl
      | ok ts => cases s'.tokens <;> rfl

/-- The place of a scanner moves with what it reads. -/
theorem Reads.frame {s s' : Scanner} {answers : List Answer} (h : Reads s answers s') :
    ∃ read, s.rest = read ++ s'.rest ∧ s'.offset = s.offset + Text.byteLength read := by
  induction h with
  | done s => exact ⟨[], rfl, rfl⟩
  | @lexeme shape c w more rest offset answers s' hw hheads _ ih =>
    obtain ⟨read, hrest, hoffset⟩ := ih
    refine ⟨w ++ c :: more ++ read, ?_, ?_⟩
    · dsimp only at hrest
      rw [hrest]
      simp
    · rw [hoffset, Text.byteLength_append (w ++ c :: more), Nat.add_assoc]

section

variable {source : String} {s' : Scanner} {answers : List Answer}
  (h : Reads (.ofText source) answers s')

include h

/-- The offset and what is left add up to the whole text. -/
theorem Reads.stop_ofText : s'.offset + Text.byteLength s'.rest = source.utf8ByteSize := by
  obtain ⟨read, hrest, hoffset⟩ := h.frame
  rw [hoffset, Nat.add_assoc, ← Text.byteLength_append, ← hrest, ← Text.byteLength_toList]
  exact Nat.zero_add _

/-- The tokens of a text are the answers, if none of them is an error, and the end of file. -/
theorem Reads.tokenize_ofText (hend : s'.AtEnd) :
    tokenize source =
      List.mapM id (answers ++ [Except.ok (Token.mk .eof (.point source.utf8ByteSize))]) := by
  rw [tokenize, h.tokens, hend.tokens, h.stop_ofText, List.mapM_append]
  cases answers.mapM id <;> rfl

end

end Scanner

namespace TokenStream

open Scanner

/-- The answers to so many calls, one after the other. -/
def answers : Nat → TokenStream → List Answer
  | 0, _ => []
  | calls + 1, s => s.next.1 :: answers calls s.next.2

/-- Before the end of the text the scanner answers. -/
theorem answers_succ (s : Scanner) (calls : Nat) :
    answers (calls + 1) ⟨none, s, false⟩ =
      s.next.1 :: answers calls ⟨none, s.next.2, isEof s.next.1⟩ := rfl

/-- Once the end of the text was reached, it is answered again and again. -/
theorem answers_of_atEof (s : Scanner) (calls : Nat) :
    answers calls ⟨none, s, true⟩ =
      List.replicate calls (.ok ⟨.eof, .point (s.offset + Text.byteLength s.rest)⟩) := by
  induction calls with
  | zero => rfl
  | succ calls ih =>
    rw [List.replicate_succ, ← ih]
    rfl

/-- A lexeme is not the end of the text. -/
theorem isEof_ofLexeme {shape : Lexeme.Shape} {c : Char} {more rest : List Char}
    (h : Lexeme.Heads shape c more rest) (offset : Nat) :
    isEof (Answer.ofLexeme shape offset (c :: more)) = false := by
  cases hanswer : Answer.ofLexeme shape offset (c :: more) with
  | error e => rfl
  | ok t => exact decide_eq_false (h.spelling (Answer.eq_of_ofLexeme_eq_ok hanswer).1).1

/-- As many calls as there are lexemes give the answers to them. -/
theorem answers_of_reads {s s' : Scanner} {given : List Answer} (h : Reads s given s')
    (calls : Nat) :
    answers (given.length + calls) ⟨none, s, false⟩ = given ++ answers calls ⟨none, s', false⟩ := by
  induction h with
  | done s => rw [List.length_nil, Nat.zero_add, List.nil_append]
  | lexeme hw hheads _ ih =>
    rw [List.length_cons, Nat.add_right_comm, answers_succ, next_lexeme hw hheads,
      isEof_ofLexeme hheads, ih, List.cons_append]

/-- At its end a stream answers with the end of the text again and again. -/
theorem answers_of_atEnd {s : Scanner} (h : s.AtEnd) (calls : Nat) :
    answers calls ⟨none, s, false⟩ =
      List.replicate calls (.ok ⟨.eof, .point (s.offset + Text.byteLength s.rest)⟩) := by
  cases calls with
  | zero => rfl
  | succ calls =>
    rw [answers_succ, h.next, List.replicate_succ]
    exact congrArg _ (answers_of_atEof _ calls)

end TokenStream

/-! ## Answers and the text between them -/

namespace Scanner

open Lexeme

/-- The answers stand in a text one behind the other from an offset on, with only trivia between
them and around them. -/
structure Tiles (source : String) (start : Nat) (answers : List Answer) : Prop where
  /-- No answer stands before the offset. -/
  behind : ∀ a ∈ answers, start ≤ (Answer.span a).start
  /-- Every answer takes at least one character, and takes whole characters. -/
  covers : ∀ a ∈ answers, (Answer.span a).start < (Answer.span a).stop ∧
    String.Pos.Raw.IsValid source ⟨(Answer.span a).start⟩ ∧
    String.Pos.Raw.IsValid source ⟨(Answer.span a).stop⟩
  /-- An answer starts where those before it have stopped. -/
  ordered : (answers.map Answer.span).Pairwise fun a b => a.stop ≤ b.start
  /-- A token is no end of file, and is spelled as it stands in the text. -/
  spelled : ∀ t, .ok t ∈ answers → t.kind ≠ .eof ∧
    Text.slice? source t.span = some t.kind.spelling
  /-- Trivia stand before the first answer and between one answer and the next. -/
  between : (.point start :: answers.map Answer.span).IsChain fun a b =>
    ∃ gap, Text.slice? source ⟨a.stop, b.start⟩ = some gap ∧ Trivia gap.toList
  /-- Trivia stand behind the last answer, where a line comment may end with the text. -/
  trailing : ∃ gap w t,
    Text.slice? source
      ⟨(answers.map fun a => (Answer.span a).stop).getLastD start, source.utf8ByteSize⟩ = some gap ∧
    gap.toList = w ++ t ∧ Trivia w ∧ Trailing t

private theorem tiles_nil {source : String} {before rest : List Char}
    (hsource : source.toList = before ++ rest)
    (hend : (Scanner.mk (Text.byteLength before) rest).AtEnd) :
    Tiles source (Text.byteLength before) [] := by
  obtain ⟨w, t, rfl, hw, ht⟩ := hend
  refine ⟨List.forall_mem_nil _, List.forall_mem_nil _, .nil, fun t ht => ?_, .singleton _,
    String.ofList (w ++ t), w, t, ?_, String.toList_ofList, hw, ht⟩
  · cases ht
  · refine Text.slice?_eq_some_iff.mpr ⟨before, [], ?_, ?_⟩
    · rw [String.toList_ofList, List.append_nil, hsource]
    · rw [String.toList_ofList, ← Text.byteLength_toList, hsource]
      rfl

private theorem tiles_cons {source : String} {shape : Shape} {c : Char}
    {before w more rest : List Char}
    {answers : List Answer} (hsource : source.toList = before ++ (w ++ c :: (more ++ rest)))
    (hw : Trivia w) (hheads : Heads shape c more rest)
    (h : Tiles source (Text.byteLength (before ++ (w ++ c :: more))) answers) :
    Tiles source (Text.byteLength before)
      (.ofLexeme shape (Text.byteLength (before ++ w)) (c :: more) :: answers) := by
  have hspan := Answer.span_ofLexeme shape (Text.byteLength (before ++ w)) (c :: more)
  rw [← Text.byteLength_append] at hspan
  have hgap : Text.slice? source ⟨Text.byteLength before, Text.byteLength (before ++ w)⟩ =
      some (String.ofList w) := by
    refine Text.slice?_eq_some_iff.mpr ⟨before, c :: (more ++ rest), ?_, ?_⟩
    · rw [String.toList_ofList, hsource, List.append_assoc]
    · rw [String.toList_ofList]
  have htext : Text.slice? source
      ⟨Text.byteLength (before ++ w), Text.byteLength (before ++ w ++ c :: more)⟩ =
      some (String.ofList (c :: more)) := by
    refine Text.slice?_eq_some_iff.mpr ⟨before ++ w, rest, ?_, ?_⟩
    · rw [String.toList_ofList, hsource]
      simp
    · rw [String.toList_ofList]
  obtain ⟨hstart, hstop⟩ := Text.isValid_of_slice? htext
  have hless : Text.byteLength (before ++ w) < Text.byteLength (before ++ w ++ c :: more) := by
    have hpos := Text.byteLength_pos (List.cons_ne_nil c more)
    rw [Text.byteLength_append (before ++ w)]
    omega
  rw [← List.append_assoc] at h
  refine ⟨?_, ?_, ?_, ?_, ?_, ?_⟩
  · refine List.forall_mem_cons.mpr ⟨?_, fun a ha => ?_⟩
    · rw [hspan, Text.byteLength_append]
      exact Nat.le_add_right _ _
    · have hbehind := h.behind a ha
      rw [Text.byteLength_append, Text.byteLength_append] at hbehind
      omega
  · refine List.forall_mem_cons.mpr ⟨?_, h.covers⟩
    rw [hspan]
    exact ⟨hless, hstart, hstop⟩
  · rw [List.map_cons, hspan]
    refine .cons (fun b hb => ?_) h.ordered
    obtain ⟨a, ha, rfl⟩ := List.mem_map.mp hb
    exact h.behind a ha
  · intro t ht
    rcases List.mem_cons.mp ht with hfirst | hmore
    · obtain ⟨hkind, htspan⟩ := Answer.eq_of_ofLexeme_eq_ok hfirst.symm
      obtain ⟨hne, hspelling⟩ := hheads.spelling hkind
      refine ⟨hne, ?_⟩
      rw [hspelling, ← htext, htspan, Text.byteLength_append (before ++ w)]
    · exact h.spelled t hmore
  · rw [List.map_cons, List.isChain_cons_cons, hspan]
    refine ⟨⟨_, hgap, by rwa [String.toList_ofList]⟩, ?_⟩
    -- Only the stop of the first span matters to the gap behind it.
    obtain ⟨hfirst, hmore⟩ := List.isChain_cons.mp h.between
    exact List.isChain_cons.mpr ⟨hfirst, hmore⟩
  · rw [List.map_cons, List.getLastD_cons, hspan]
    exact h.trailing

/-- What a scanner reads up to the end of a text tiles the text. -/
theorem Reads.tiles {s s' : Scanner} {answers : List Answer} (h : Reads s answers s')
    (hend : s'.AtEnd) {source : String} {before : List Char}
    (hsource : source.toList = before ++ s.rest) (hoffset : s.offset = Text.byteLength before) :
    Tiles source (Text.byteLength before) answers := by
  induction h generalizing before with
  | done s =>
    obtain ⟨offset, rest⟩ := s
    subst hoffset
    exact tiles_nil hsource hend
  | @lexeme shape c w more rest offset answers s' hw hheads _ ih =>
    subst hoffset
    rw [← Text.byteLength_append]
    refine tiles_cons hsource hw hheads (ih hend ?_ ?_)
    · rw [hsource]
      simp
    · rw [Text.byteLength_append before]

end Scanner

/-- The scanner is lossless. Called again and again on any text, it gives finitely many answers,
tokens or errors, and from then on the end of the text. The answers stand in the text one behind
the other, each over at least one character and each token over its own spelling, with nothing but
trivia before, between and behind them. The tokens of the text are these answers and the end, up
to the first error. -/
theorem answers_tile_source (source : String) :
    ∃ answers : List Scanner.Answer, Scanner.Tiles source 0 answers ∧
      (∀ calls, (TokenStream.ofText source).answers (answers.length + calls) =
        answers ++ List.replicate calls (.ok ⟨.eof, .point source.utf8ByteSize⟩)) ∧
      tokenize source =
        List.mapM id (answers ++ [Except.ok (Token.mk .eof (.point source.utf8ByteSize))]) := by
  obtain ⟨answers, s', hreads, hend⟩ := (Scanner.ofText source).exists_reads
  have htiles : Scanner.Tiles source (Text.byteLength []) answers := hreads.tiles hend rfl rfl
  refine ⟨answers, htiles, fun calls => ?_, hreads.tokenize_ofText hend⟩
  rw [← hreads.stop_ofText, ← TokenStream.answers_of_atEnd hend]
  exact TokenStream.answers_of_reads hreads calls

end ClassCheck
