import ClassCheck.Proofs.LongestMatch
import Mathlib.Order.Bounds.Defs

/-!
# Block comments end at their first closing mark

The pattern of block comments counts runs of stars, and the scanner searches for a closing mark.
Both come to the same: wherever a scanner meets the opening of a comment, what it skips goes up to
and with the first closing mark that starts behind the opening, and nothing else in front of it
matches the pattern. The star of the opening closes nothing. Without a closing mark the pattern
does not match, and all of the text that is left is one error.
-/

namespace ClassCheck

open Lexeme

/-! ## The places that a scanner meets -/

namespace Scanner

/-- The scanner behind the run of blanks or the closed comment in front, if there is one. -/
def skipTrivium (s : Scanner) : Scanner := s.drop (triviumLength s.rest)

/-- The places where a scanner looks for the next piece of a text. -/
inductive Meets (source : String) : Scanner → Prop
  /-- The start of the text. -/
  | start : Meets source (.ofText source)
  /-- The place behind blanks or a comment. -/
  | trivium {s : Scanner} : Meets source s → Meets source s.skipTrivium
  /-- The place behind a token or an error. -/
  | answer {s : Scanner} : Meets source s → Meets source s.next.2

private theorem drop_drop (s : Scanner) (m n : Nat) : (s.drop m).drop n = s.drop (m + n) := by
  simp only [drop, List.take_add, List.drop_drop, Text.byteLength_append, Nat.add_assoc]

/-- Trivia are skipped one after the other. -/
theorem skipTrivia_skipTrivium (s : Scanner) : s.skipTrivium.skipTrivia = s.skipTrivia := by
  by_cases hnone : triviumLength s.rest = 0
  · rw [skipTrivium, hnone]
    rfl
  · rw [skipTrivium, skipTrivia, skipTrivia, drop_drop, drop_rest, triviaLength_eq s.rest,
      if_neg hnone]

/-- Skipping one piece of trivia first makes no difference to the answer. -/
theorem next_skipTrivium (s : Scanner) : s.skipTrivium.next = s.next := by
  rw [next, next, skipTrivia_skipTrivium]

private theorem exists_lexeme_eq_drop (s : Scanner) : ∃ n, s.lexeme.2 = s.drop n := by
  unfold lexeme
  split
  · exact ⟨0, rfl⟩
  · dsimp only
    split
    · exact ⟨_, rfl⟩
    · exact ⟨_, rfl⟩

/-- The scanner has the rest of the text ahead, behind as many bytes as its offset says. -/
def StandsIn (source : String) (s : Scanner) : Prop :=
  ∃ before, source.toList = before ++ s.rest ∧ s.offset = Text.byteLength before

/-- A scanner that stands in a text does so behind more characters, too. -/
theorem StandsIn.drop {source : String} {s : Scanner} (h : s.StandsIn source) (n : Nat) :
    (s.drop n).StandsIn source := by
  obtain ⟨before, hsource, hoffset⟩ := h
  refine ⟨before ++ s.rest.take n, ?_, ?_⟩
  · rw [List.append_assoc, drop_rest, List.take_append_drop, hsource]
  · rw [Scanner.drop, hoffset, Text.byteLength_append]

section

variable {source : String} {s : Scanner} (h : s.StandsIn source)

include h

/-- A piece of the text from the offset of the scanner on is in front of the scanner. -/
theorem StandsIn.slice?_eq_some_iff {q : Nat} {piece : String} :
    Text.slice? source ⟨s.offset, q⟩ = some piece ↔
      ∃ back, s.rest = piece.toList ++ back ∧ q = s.offset + Text.byteLength piece.toList := by
  obtain ⟨before, hsource, hoffset⟩ := h
  rw [Text.slice?_behind hsource hoffset.ge]
  constructor
  · rintro ⟨front, back, hrest, hstart, hstop⟩
    have hnone : front = [] := Text.eq_nil_of_byteLength (by omega)
    rw [hnone] at hrest
    exact ⟨back, hrest, hstop⟩
  · rintro ⟨back, hrest, hstop⟩
    exact ⟨[], back, hrest, hoffset, hstop⟩

/-- The offset and what is left make up the text. -/
theorem StandsIn.offset_add_rest : s.offset + Text.byteLength s.rest = source.utf8ByteSize := by
  obtain ⟨before, hsource, hoffset⟩ := h
  rw [hoffset, ← Text.byteLength_append, ← hsource, Text.byteLength_toList]

/-- What is left is what the text has from the offset on. -/
theorem StandsIn.slice?_rest :
    Text.slice? source ⟨s.offset, source.utf8ByteSize⟩ = some (String.ofList s.rest) := by
  refine h.slice?_eq_some_iff.mpr ⟨[], ?_, ?_⟩
  · rw [String.toList_ofList, List.append_nil]
  · rw [String.toList_ofList, h.offset_add_rest]

end

/-- A scanner stays in its text. -/
theorem Meets.standsIn {source : String} {s : Scanner} (h : Meets source s) :
    s.StandsIn source := by
  induction h with
  | start => exact ⟨[], rfl, rfl⟩
  | trivium _ ih => exact ih.drop _
  | @answer s _ ih =>
    obtain ⟨n, hn⟩ := s.skipTrivia.exists_lexeme_eq_drop
    rw [next, hn]
    exact (ih.drop _).drop n

end Scanner

/-! ## Comments and the pattern -/

/-- Of the texts in front of a comment with its first closing mark, just the one up to that mark
matches the pattern. -/
theorem Pattern.mem_blockComment_iff_of_prefix {body rest w : List Char}
    (hbody : ¬ ['*', '/'] <:+: body ++ ['*'])
    (hw : w <+: '/' :: '*' :: (body ++ '*' :: '/' :: rest)) :
    w ∈ language .blockComment ↔ w = '/' :: '*' :: (body ++ ['*', '/']) := by
  rw [mem_blockComment_iff]
  constructor
  · rintro ⟨body', hbody', rfl⟩
    obtain ⟨rest', hrest'⟩ := hw
    have htext : body' ++ '*' :: '/' :: rest' = body ++ '*' :: '/' :: rest := by
      simpa using hrest'
    -- The search stops at the end of both, so they are equally long.
    have hlength := commentLength?_append hbody' rest'
    rw [htext, commentLength?_append hbody rest, Option.some.injEq, Nat.add_right_cancel_iff]
      at hlength
    rw [(List.append_inj htext hlength.symm).1]
  · rintro rfl
    exact ⟨body, hbody, rfl⟩

namespace Lexeme

/-- No text at the front of an open comment matches the pattern. -/
theorem OpensComment.not_mem_blockComment {text w : List Char} (h : OpensComment text)
    (hw : w <+: text) : w ∉ Pattern.language .blockComment := by
  obtain ⟨body, rfl, hbody⟩ := h
  intro hmem
  obtain ⟨front, -, rfl⟩ := Pattern.mem_blockComment_iff.mp hmem
  obtain ⟨rest, hrest⟩ := hw
  refine hbody ⟨front, rest, ?_⟩
  simpa using hrest

/-- The search for a closing mark fails exactly where there is none. -/
theorem commentLength?_eq_none_iff {body : List Char} :
    commentLength? body = none ↔ ¬ ['*', '/'] <:+: body := by
  refine ⟨not_closed_of_commentLength?, fun h => ?_⟩
  cases hlength : commentLength? body with
  | none => rfl
  | some n =>
    obtain ⟨front, rest, rfl, -⟩ := exists_of_commentLength? hlength
    exact absurd ⟨front, rest, by simp⟩ h

/-- A comment without a closing mark is one lexeme up to the end. -/
theorem OpensComment.heads {body : List Char} (h : ¬ ['*', '/'] <:+: body) :
    Heads .openComment '/' ('*' :: body) [] := by
  refine ⟨?_, ?_⟩
  · rw [List.append_nil, triviumLength_slash_star, commentLength?_eq_none_iff.mpr h]
    rfl
  · rw [List.append_nil]
    rfl

end Lexeme

private theorem byteLength_comment (body : List Char) :
    Text.byteLength ('/' :: '*' :: (body ++ ['*', '/'])) = Text.byteLength body + 4 := by
  have hsigns : '/'.utf8Size = 1 ∧ '*'.utf8Size = 1 := ⟨rfl, rfl⟩
  simp only [Text.byteLength_append, Text.byteLength_cons, Text.byteLength_nil, hsigns]
  omega

namespace Scanner

section

variable {source : String} {s : Scanner} {body rest : List Char}
  (hbody : ¬ ['*', '/'] <:+: body ++ ['*'])
  (hrest : s.rest = '/' :: '*' :: (body ++ '*' :: '/' :: rest))

include hbody hrest

/-- A comment is skipped with its first closing mark. -/
theorem skipTrivium_comment :
    s.skipTrivium = ⟨s.offset + (Text.byteLength body + 4), rest⟩ := by
  have hlength : triviumLength ('/' :: '*' :: (body ++ '*' :: '/' :: rest)) =
      ('/' :: '*' :: (body ++ ['*', '/'])).length := by
    rw [triviumLength_slash_star, commentLength?_append hbody]
    simp
  have htext : '/' :: '*' :: (body ++ '*' :: '/' :: rest) =
      '/' :: '*' :: (body ++ ['*', '/']) ++ rest := by simp
  rw [skipTrivium, drop, hrest, hlength, htext, List.take_left, List.drop_left, byteLength_comment]

/-- Of the pieces of the text that start with the comment, just the comment matches the pattern. -/
theorem StandsIn.mem_blockComment_iff (hs : s.StandsIn source) {q : Nat} {piece : String}
    (hpiece : Text.slice? source ⟨s.offset, q⟩ = some piece) :
    piece.toList ∈ Pattern.language .blockComment ↔
      q = s.offset + (Text.byteLength body + 4) := by
  obtain ⟨back, hback, rfl⟩ := hs.slice?_eq_some_iff.mp hpiece
  have hfront : piece.toList <+: '/' :: '*' :: (body ++ '*' :: '/' :: rest) :=
    ⟨back, by rw [← hback, hrest]⟩
  have hcomment : '/' :: '*' :: (body ++ ['*', '/']) <+:
      '/' :: '*' :: (body ++ '*' :: '/' :: rest) := ⟨rest, by simp⟩
  rw [Pattern.mem_blockComment_iff_of_prefix hbody hfront, Nat.add_left_cancel_iff,
    ← byteLength_comment]
  exact ⟨congrArg Text.byteLength, Text.eq_of_byteLength_eq hfront hcomment⟩

end

/-- A comment that is never closed is one error over all that is left. -/
theorem next_of_opensComment {s : Scanner} (h : OpensComment s.rest) :
    s.next = (.error ⟨.unexpected (String.ofList s.rest),
      ⟨s.offset, s.offset + Text.byteLength s.rest⟩⟩, ⟨s.offset + Text.byteLength s.rest, []⟩) := by
  obtain ⟨offset, rest⟩ := s
  obtain ⟨body, hrest, hbody⟩ := h
  dsimp only at hrest
  subst hrest
  have hnext := next_lexeme .nil (OpensComment.heads hbody) offset
  rwa [List.nil_append, List.append_nil] at hnext

end Scanner

/-! ## Closing marks by their bytes -/

/-- The bytes of a text at which a closing mark starts, from an offset on. -/
def closingMarks (source : String) (start : Nat) : Set Nat :=
  {p | start ≤ p ∧ Text.slice? source ⟨p, p + 2⟩ = some "*/"}

section

variable {source : String} {before body : List Char}
  (hsource : source.toList = before ++ '/' :: '*' :: body)

include hsource

/-- The closing marks of a text behind an opening are those of the characters there. -/
theorem mem_closingMarks_iff {p : Nat} :
    p ∈ closingMarks source (Text.byteLength before + 2) ↔
      ∃ front back, body = front ++ '*' :: '/' :: back ∧
        p = Text.byteLength before + 2 + Text.byteLength front := by
  have hopening : source.toList = (before ++ ['/', '*']) ++ body := by rw [hsource]; simp
  have hbytes : Text.byteLength (before ++ ['/', '*']) = Text.byteLength before + 2 :=
    Text.byteLength_append _ _
  have hmark : "*/".toList = ['*', '/'] := rfl
  constructor
  · rintro ⟨hle, hslice⟩
    rw [← hbytes] at hle
    obtain ⟨front, back, hbody, hstart, -⟩ := (Text.slice?_behind hopening hle).mp hslice
    refine ⟨front, back, ?_, by rw [hstart, hbytes]⟩
    rw [hbody, hmark, List.append_assoc]
    rfl
  · rintro ⟨front, back, hbody, rfl⟩
    refine ⟨Nat.le_add_right _ _, (Text.slice?_behind hopening ?_).mpr ⟨front, back, ?_, ?_, rfl⟩⟩
    · rw [hbytes]
      exact Nat.le_add_right _ _
    · rw [hbody, hmark, List.append_assoc]
      rfl
    · rw [hbytes]

/-- Up to the first closing mark no comment is closed. -/
theorem exists_of_isLeast_closingMarks {p : Nat}
    (hp : IsLeast (closingMarks source (Text.byteLength before + 2)) p) :
    ∃ front back, body = front ++ '*' :: '/' :: back ∧ ¬ ['*', '/'] <:+: front ++ ['*'] ∧
      p = Text.byteLength before + 2 + Text.byteLength front := by
  obtain ⟨front, back, hbody, hfront⟩ := (mem_closingMarks_iff hsource).mp hp.1
  refine ⟨front, back, hbody, ?_, hfront⟩
  rintro ⟨left, right, hmark⟩
  -- A mark inside would start before the first one.
  have hearlier : body = left ++ '*' :: '/' :: (right ++ '/' :: back) := by
    calc body = (front ++ ['*']) ++ '/' :: back := by rw [hbody]; simp
      _ = left ++ '*' :: '/' :: (right ++ '/' :: back) := by rw [← hmark]; simp
  have hle := hp.2 ((mem_closingMarks_iff hsource).mpr ⟨left, _, hearlier, rfl⟩)
  have hbytes := congrArg Text.byteLength hmark
  simp only [Text.byteLength_append, Text.byteLength_cons, Text.byteLength_nil] at hbytes
  have hstar : '*'.utf8Size = 1 := rfl
  have hslash : '/'.utf8Size = 1 := rfl
  omega

/-- Without a closing mark behind it an opening opens a comment that is never closed. -/
theorem opensComment_of_closingMarks
    (h : closingMarks source (Text.byteLength before + 2) = ∅) :
    OpensComment ('/' :: '*' :: body) := by
  refine ⟨body, rfl, ?_⟩
  rintro ⟨front, back, hbody⟩
  have hmem := (mem_closingMarks_iff hsource).mpr ⟨front, back, by rw [← hbody]; simp, rfl⟩
  rw [h] at hmem
  exact hmem

end

/-- Wherever a scanner meets the opening of a block comment, the following holds of the closing
marks that start at least two bytes later. If there is a first one, then of all pieces of the text
that start with the opening just the one up to and with this mark matches the pattern of block
comments, the scanner skips this piece, and what it answers is what it answers behind it. If there
is none, then no piece matches, and the scanner answers with one error over all the text that is
left and then with the end of the text. -/
theorem comment_ends_at_first_close {source : String} {s : Scanner} (hs : s.Meets source)
    (hopen : Text.slice? source ⟨s.offset, s.offset + 2⟩ = some "/*") :
    (∀ p, IsLeast (closingMarks source (s.offset + 2)) p →
      (∃ comment, Text.slice? source ⟨s.offset, p + 2⟩ = some comment) ∧
      (∀ q piece, Text.slice? source ⟨s.offset, q⟩ = some piece →
        (piece.toList ∈ Pattern.language .blockComment ↔ q = p + 2)) ∧
      ∃ rest, Text.slice? source ⟨p + 2, source.utf8ByteSize⟩ = some rest ∧
        s.skipTrivium = ⟨p + 2, rest.toList⟩ ∧
        s.next = (Scanner.mk (p + 2) rest.toList).next) ∧
    (closingMarks source (s.offset + 2) = ∅ →
      (∀ q piece, Text.slice? source ⟨s.offset, q⟩ = some piece →
        piece.toList ∉ Pattern.language .blockComment) ∧
      ∃ rest, Text.slice? source ⟨s.offset, source.utf8ByteSize⟩ = some rest ∧
        ∀ calls, TokenStream.answers (calls + 1) ⟨none, s, false⟩ =
          .error ⟨.unexpected rest, ⟨s.offset, source.utf8ByteSize⟩⟩ ::
            List.replicate calls (.ok ⟨.eof, .point source.utf8ByteSize⟩)) := by
  have hstands := hs.standsIn
  obtain ⟨body, hrest, -⟩ := hstands.slice?_eq_some_iff.mp hopen
  replace hrest : s.rest = '/' :: '*' :: body := hrest
  obtain ⟨before, hsource, hoffset⟩ := hs.standsIn
  rw [hrest] at hsource
  refine ⟨fun p hp => ?_, fun hnone => ?_⟩
  · rw [hoffset] at hp
    obtain ⟨front, back, rfl, hfront, hp⟩ := exists_of_isLeast_closingMarks hsource hp
    have hstop : p + 2 = s.offset + (Text.byteLength front + 4) := by omega
    have hskip := Scanner.skipTrivium_comment hfront hrest
    have hafter := hs.trivium.standsIn.slice?_rest
    rw [hskip] at hafter
    rw [hstop]
    refine ⟨⟨String.ofList ('/' :: '*' :: (front ++ ['*', '/'])), ?_⟩,
      fun q piece hpiece => hstands.mem_blockComment_iff hfront hrest hpiece, _, hafter, ?_, ?_⟩
    · refine hstands.slice?_eq_some_iff.mpr ⟨back, ?_, ?_⟩
      · rw [hrest, String.toList_ofList]
        simp
      · rw [String.toList_ofList, byteLength_comment]
    · rw [hskip, String.toList_ofList]
    · rw [String.toList_ofList, ← hskip, Scanner.next_skipTrivium]
  · rw [hoffset] at hnone
    have hopens : OpensComment s.rest := by
      rw [hrest]
      exact opensComment_of_closingMarks hsource hnone
    refine ⟨fun q piece hpiece => ?_, _, hstands.slice?_rest, fun calls => ?_⟩
    · obtain ⟨back, hback, -⟩ := hstands.slice?_eq_some_iff.mp hpiece
      exact hopens.not_mem_blockComment ⟨back, hback.symm⟩
    · have hend : (Scanner.mk source.utf8ByteSize []).AtEnd := ⟨[], [], rfl, .nil, .inl rfl⟩
      rw [TokenStream.answers_succ, Scanner.next_of_opensComment hopens, hstands.offset_add_rest]
      exact congrArg _ (TokenStream.answers_of_atEnd hend calls)

/-- A comment with a slash behind the star of its opening and a run of stars before its closing
mark, and one that is never closed. -/
def starRuns : String := "é/*/ ***/ /*/"

/-- The scanner at the first comment. -/
def beforeStarRuns : Scanner := ⟨2, ['/', '*', '/', ' ', '*', '*', '*', '/', ' ', '/', '*', '/']⟩

theorem meets_beforeStarRuns : beforeStarRuns.Meets starRuns := by
  have hstray : (Scanner.ofText starRuns).next.2 = beforeStarRuns := by
    rw [Scanner.next, Scanner.skipTrivia_of_triviumLength (by decide +kernel)]
    decide +kernel
  rw [← hstray]
  exact .answer .start

/-- The scanner behind the first comment and the blank. -/
theorem meets_behind_starRuns : (Scanner.mk 11 ['/', '*', '/']).Meets starRuns := by
  have hblank : beforeStarRuns.skipTrivium.skipTrivium = ⟨11, ['/', '*', '/']⟩ := by decide +kernel
  rw [← hblank]
  exact meets_beforeStarRuns.trivium.trivium

theorem isLeast_closingMarks_starRuns : IsLeast (closingMarks starRuns 4) 8 := by
  refine ⟨⟨by decide, by decide +kernel⟩, ?_⟩
  rintro p ⟨hle, hmark⟩
  by_contra hless
  obtain rfl | rfl | rfl | rfl : p = 4 ∨ p = 5 ∨ p = 6 ∨ p = 7 := by omega
  all_goals exact absurd hmark (by decide +kernel)

theorem closingMarks_behind_starRuns : closingMarks starRuns 13 = ∅ := by
  refine Set.eq_empty_of_forall_notMem ?_
  rintro p ⟨hle, hmark⟩
  have hstop : p + 2 ≤ starRuns.utf8ByteSize := Text.stop_le_of_slice? hmark
  have hsize : starRuns.utf8ByteSize = 14 := by decide +kernel
  omega

/-- The first comment ends with its run of stars, and the second one is an error. -/
theorem starRuns_end_at_first_close :
    (beforeStarRuns.Meets starRuns ∧ Text.slice? starRuns ⟨2, 4⟩ = some "/*" ∧
      IsLeast (closingMarks starRuns 4) 8 ∧
      ∃ rest, Text.slice? starRuns ⟨10, 14⟩ = some rest ∧
        beforeStarRuns.skipTrivium = ⟨10, rest.toList⟩) ∧
    (Scanner.mk 11 ['/', '*', '/']).Meets starRuns ∧
      Text.slice? starRuns ⟨11, 13⟩ = some "/*" ∧ closingMarks starRuns 13 = ∅ ∧
      ∃ rest, Text.slice? starRuns ⟨11, 14⟩ = some rest ∧
        ∀ calls, TokenStream.answers (calls + 1) ⟨none, ⟨11, ['/', '*', '/']⟩, false⟩ =
          .error ⟨.unexpected rest, ⟨11, 14⟩⟩ :: List.replicate calls (.ok ⟨.eof, .point 14⟩) := by
  have hfirst : Text.slice? starRuns ⟨2, 4⟩ = some "/*" := by decide +kernel
  have hsecond : Text.slice? starRuns ⟨11, 13⟩ = some "/*" := by decide +kernel
  have hsize : starRuns.utf8ByteSize = 14 := by decide +kernel
  obtain ⟨hclosed, -⟩ := comment_ends_at_first_close meets_beforeStarRuns hfirst
  obtain ⟨-, hopen⟩ := comment_ends_at_first_close meets_behind_starRuns hsecond
  obtain ⟨-, -, rest, hrest, hskip, -⟩ := hclosed 8 isLeast_closingMarks_starRuns
  obtain ⟨-, left, hleft, hanswers⟩ := hopen closingMarks_behind_starRuns
  rw [hsize] at hrest hleft hanswers
  exact ⟨⟨meets_beforeStarRuns, hfirst, isLeast_closingMarks_starRuns, rest, hrest, hskip⟩,
    meets_behind_starRuns, hsecond, closingMarks_behind_starRuns, left, hleft, hanswers⟩

end ClassCheck
