import ClassCheck.Token.Scanner
import Mathlib.Data.List.Infix

/-!
# Trivia and lexemes in front of a text

What a scanner makes of a text, by what the text starts with. Blanks and closed comments in
front make no difference but for the offset, and a lexeme in front gives its token, or its error,
and leaves the rest.
-/

namespace ClassCheck

namespace Lexeme

/-- Blanks and closed comments, in any number and order. -/
inductive Trivia : List Char → Prop
  /-- Nothing at all. -/
  | nil : Trivia []
  /-- A blank and more. -/
  | blank {c : Char} {w : List Char} : isBlank c = true → Trivia w → Trivia (c :: w)
  /-- A comment up to the end of its line and more. -/
  | line {body w : List Char} : '\n' ∉ body → Trivia w → Trivia ('#' :: (body ++ '\n' :: w))
  /-- A comment up to its first closing mark and more. -/
  | block {body w : List Char} : ¬ ['*', '/'] <:+: body ++ ['*'] → Trivia w →
      Trivia ('/' :: '*' :: (body ++ '*' :: '/' :: w))

/-! ## Lengths of trivia -/

/-- Trivia are taken piece by piece. -/
theorem triviaLength_eq (cs : List Char) :
    triviaLength cs = triviumLength cs +
      if triviumLength cs = 0 then 0 else triviaLength (cs.drop (triviumLength cs)) := by
  rw [triviaLength]
  split
  · rename_i h
    rw [h, if_pos rfl]
  · rename_i n h
    rw [h, if_neg n.succ_ne_zero]

/-- Where no piece starts, there are no trivia. -/
theorem triviaLength_of_triviumLength {cs : List Char} (h : triviumLength cs = 0) :
    triviaLength cs = 0 := by
  rw [triviaLength_eq, h, if_pos rfl]

/-- A run is as long as its characters fit. -/
theorem runLength_cons (p : Char → Bool) (c : Char) (cs : List Char) :
    runLength p (c :: cs) = if p c then runLength p cs + 1 else 0 := by
  unfold runLength
  rw [List.takeWhile_cons]
  split <;> rfl

/-- What a run takes is what fits at the front. -/
theorem take_runLength (p : Char → Bool) (cs : List Char) :
    cs.take (runLength p cs) = cs.takeWhile p :=
  (List.prefix_iff_eq_take.mp (List.takeWhile_prefix p)).symm

/-- A run ends where the first character does not belong to it. -/
theorem runLength_append {p : Char → Bool} {as : List Char} (has : ∀ c ∈ as, p c = true)
    (bs : List Char) : runLength p (as ++ bs) = as.length + runLength p bs := by
  induction as with
  | nil => rw [List.nil_append, List.length_nil, Nat.zero_add]
  | cons a as ih =>
    rw [List.forall_mem_cons] at has
    rw [List.cons_append, runLength_cons, if_pos has.1, ih has.2, List.length_cons]
    omega

/-- A blank starts a run of blanks. -/
theorem triviumLength_blank {c : Char} (hc : isBlank c = true) (cs : List Char) :
    triviumLength (c :: cs) = runLength isBlank (c :: cs) := by
  rw [runLength_cons, if_pos hc, Nat.add_comm]
  exact if_pos hc

/-- The blanks in front are trivia, whatever comes after them. -/
theorem triviaLength_eq_blanks (cs : List Char) :
    triviaLength cs = runLength isBlank cs + triviaLength (cs.drop (runLength isBlank cs)) := by
  cases cs with
  | nil => exact (Nat.zero_add _).symm
  | cons c cs =>
    by_cases hc : isBlank c = true
    · have hpos : triviumLength (c :: cs) ≠ 0 := by
        rw [triviumLength_blank hc, runLength_cons, if_pos hc]
        exact Nat.succ_ne_zero _
      rw [triviaLength_eq, if_neg hpos, triviumLength_blank hc]
    · rw [runLength_cons, if_neg hc, Nat.zero_add, List.drop_zero]

/-- Blanks may be taken one by one. -/
theorem triviaLength_cons_blank {c : Char} (hc : isBlank c = true) (cs : List Char) :
    triviaLength (c :: cs) = 1 + triviaLength cs := by
  rw [triviaLength_eq_blanks, triviaLength_eq_blanks cs, runLength_cons, if_pos hc,
    List.drop_succ_cons]
  omega

/-- A comment of a line is taken up to the line feed. -/
theorem triviumLength_hash (body : List Char) :
    triviumLength ('#' :: body) = 1 + runLength (· ≠ '\n') body := rfl

/-- A block comment is taken if it is closed. -/
theorem triviumLength_slash_star (cs : List Char) :
    triviumLength ('/' :: '*' :: cs) = ((commentLength? cs).map (· + 2)).getD 0 := rfl

/-- A comment goes on over a character at which no closing mark starts. -/
theorem commentLength?_cons {c : Char} {cs : List Char} (h : ¬ ['*', '/'] <+: c :: cs) :
    commentLength? (c :: cs) = (commentLength? cs).map (· + 1) := by
  refine commentLength?.eq_2 c cs fun rest hc hcs => h ?_
  rw [hc, hcs]
  exact ⟨rest, rfl⟩

/-- A comment without a closing mark inside ends with the mark behind it. -/
theorem commentLength?_append {body : List Char} (h : ¬ ['*', '/'] <:+: body ++ ['*'])
    (cs : List Char) : commentLength? (body ++ '*' :: '/' :: cs) = some (body.length + 2) := by
  induction body with
  | nil => rfl
  | cons b body ih =>
    have hfirst : ¬ ['*', '/'] <+: b :: (body ++ '*' :: '/' :: cs) := by
      intro hin
      -- The mark would start the comment: its second character is then inside too.
      cases body with
      | nil => simp at hin
      | cons d body =>
        refine h (List.IsPrefix.isInfix ?_)
        simpa using hin
    have hrest : ¬ ['*', '/'] <:+: body ++ ['*'] := fun hin => h (List.infix_cons hin)
    rw [List.cons_append, commentLength?_cons hfirst, ih hrest, Option.map_some,
      List.length_cons, Nat.add_right_comm]

/-- All trivia in front are skipped together. -/
theorem Trivia.triviaLength_append {w : List Char} (hw : Trivia w) (cs : List Char) :
    triviaLength (w ++ cs) = w.length + triviaLength cs := by
  induction hw with
  | nil => rw [List.nil_append, List.length_nil, Nat.zero_add]
  | @blank c w hc _ ih =>
    rw [List.cons_append, triviaLength_cons_blank hc, ih, List.length_cons]
    omega
  | @line body w hbody _ ih =>
    have hrun : runLength (· ≠ '\n') (body ++ '\n' :: (w ++ cs)) = body.length := by
      rw [runLength_append (fun c hc => by simpa using ne_of_mem_of_not_mem hc hbody),
        runLength_cons]
      rfl
    have hlength : triviumLength ('#' :: (body ++ '\n' :: (w ++ cs))) = body.length + 1 := by
      rw [triviumLength_hash, hrun, Nat.add_comm]
    rw [List.cons_append, List.append_assoc, List.cons_append, triviaLength_eq, hlength,
      if_neg (Nat.succ_ne_zero _), List.drop_succ_cons, List.drop_left,
      triviaLength_cons_blank (by decide), ih]
    simp only [List.length_cons, List.length_append]
    omega
  | @block body w hbody _ ih =>
    have hlength : triviumLength ('/' :: '*' :: (body ++ '*' :: '/' :: (w ++ cs))) =
        (body ++ ['*', '/']).length + 2 := by
      rw [triviumLength_slash_star, commentLength?_append hbody, List.length_append]
      rfl
    have hsplit : body ++ '*' :: '/' :: (w ++ cs) = (body ++ ['*', '/']) ++ (w ++ cs) := by simp
    rw [List.cons_append, List.cons_append, List.append_assoc, List.cons_append, List.cons_append,
      triviaLength_eq, hlength, if_neg (Nat.succ_ne_zero _), List.drop_succ_cons,
      List.drop_succ_cons, hsplit, List.drop_left, ih]
    simp only [List.length_cons, List.length_append, List.length_nil]
    omega

/-- A comment that ends with the text. -/
theorem triviaLength_last_comment {body : List Char} (h : '\n' ∉ body) :
    triviaLength ('#' :: body) = body.length + 1 := by
  have hrun : runLength (· ≠ '\n') body = body.length := by
    have happend := runLength_append (p := (· ≠ '\n'))
      (fun c hc => by simpa using ne_of_mem_of_not_mem hc h) []
    rwa [List.append_nil] at happend
  rw [triviaLength_eq, triviumLength_hash, hrun, Nat.add_comm 1, if_neg (Nat.succ_ne_zero _),
    List.drop_succ_cons, List.drop_length, triviaLength_of_triviumLength rfl]

/-- A text starts with a lexeme of a shape, which is a character and more behind it. -/
structure Heads (shape : Shape) (c : Char) (more rest : List Char) : Prop where
  /-- The text does not start with trivia. -/
  noTrivia : triviumLength (c :: (more ++ rest)) = 0
  /-- The lexeme has the shape and ends where the rest starts. -/
  tail : Lexeme.tail c (more ++ rest) = (shape, more.length)

end Lexeme

namespace Scanner

open Lexeme

/-! ## Tokens of a text by its front -/

/-- Scanners that come to the same behind trivia give the same tokens. -/
theorem tokens_eq_of_skipTrivia {s s' : Scanner} (h : s.skipTrivia = s'.skipTrivia) :
    s.tokens = s'.tokens := by
  rw [tokens, tokens, h]

/-- Where no piece of trivia starts, none is skipped. -/
theorem skipTrivia_of_triviumLength {s : Scanner} (h : triviumLength s.rest = 0) :
    s.skipTrivia = s := by
  rw [skipTrivia, triviaLength_of_triviumLength h]
  rfl

/-- Trivia in front only move the offset. -/
theorem skipTrivia_append {w : List Char} (hw : Trivia w) (offset : Nat) (cs : List Char) :
    (Scanner.mk offset (w ++ cs)).skipTrivia =
      (Scanner.mk (offset + Text.byteLength w) cs).skipTrivia := by
  simp only [skipTrivia, drop, hw.triviaLength_append]
  rw [List.take_length_add_append, List.drop_length_add_append, Text.byteLength_append,
    Nat.add_assoc]

/-- Trivia in front only move the offset of the tokens. -/
theorem tokens_trivia {w : List Char} (hw : Trivia w) (offset : Nat) (cs : List Char) :
    (Scanner.mk offset (w ++ cs)).tokens =
      (Scanner.mk (offset + Text.byteLength w) cs).tokens :=
  tokens_eq_of_skipTrivia (skipTrivia_append hw offset cs)

/-- If nothing is left behind trivia, the end of file is the only token. -/
theorem tokens_of_empty {s : Scanner} (h : s.skipTrivia.rest = []) :
    s.tokens = .ok [⟨.eof, .point s.skipTrivia.offset⟩] := by
  rw [tokens, dif_pos h]

/-- So it is for no text at all. -/
theorem tokens_nil (offset : Nat) :
    (Scanner.mk offset []).tokens = .ok [⟨.eof, .point offset⟩] := by
  have hskip : (Scanner.mk offset []).skipTrivia = ⟨offset, []⟩ := by simp [skipTrivia, drop]
  rw [tokens_of_empty (by rw [hskip]), hskip]

/-- A lexeme in front gives its token or its error, and leaves the rest. -/
theorem tokens_lexeme {shape : Shape} {c : Char} {more rest : List Char}
    (h : Heads shape c more rest) (offset : Nat) :
    (Scanner.mk offset (c :: (more ++ rest))).tokens =
      let after := offset + Text.byteLength (c :: more)
      match classify shape (String.ofList (c :: more)) with
      | .error fault => .error ⟨fault, ⟨offset, after⟩⟩
      | .ok kind => (Scanner.mk after rest).tokens.map (⟨kind, ⟨offset, after⟩⟩ :: ·) := by
  have hskip : (Scanner.mk offset (c :: (more ++ rest))).skipTrivia =
      ⟨offset, c :: (more ++ rest)⟩ := skipTrivia_of_triviumLength h.noTrivia
  have hafter : (Scanner.mk offset (c :: (more ++ rest))).drop (more.length + 1) =
      ⟨offset + Text.byteLength (c :: more), rest⟩ := by
    simp [drop]
  have htext : (c :: (more ++ rest)).take (more.length + 1) = c :: more := by simp
  rw [tokens, hskip, dif_neg (List.cons_ne_nil _ _), lexeme]
  dsimp only
  rw [h.tail, hafter, htext]
  dsimp only
  cases classify shape (String.ofList (c :: more)) <;> rfl

/-! ## Kinds of tokens -/

/-- The kinds of the tokens of a text, or the first fault, wherever they stand. -/
def kinds (s : Scanner) : Except LexicalFault (List TokenKind) :=
  (s.tokens.map (List.map Token.kind)).mapError LexicalError.fault

/-- A lexeme in front gives its kind, or its fault, before those of the rest. -/
theorem kinds_lexeme {shape : Shape} {c : Char} {more rest : List Char}
    (h : Heads shape c more rest) (offset : Nat) :
    (Scanner.mk offset (c :: (more ++ rest))).kinds =
      match classify shape (String.ofList (c :: more)) with
      | .error fault => .error fault
      | .ok kind =>
        (Scanner.mk (offset + Text.byteLength (c :: more)) rest).kinds.map (kind :: ·) := by
  rw [kinds, kinds, tokens_lexeme h]
  dsimp only
  cases classify shape (String.ofList (c :: more)) with
  | error fault => rfl
  | ok kind =>
    dsimp only
    cases (Scanner.mk (offset + Text.byteLength (c :: more)) rest).tokens <;> rfl

end Scanner

end ClassCheck
