import ClassCheck.Proofs.Excerpts
import ClassCheck.Proofs.LongestMatch

/-!
# Tokens written out again with other blanks between them

The texts of the tokens of a source, written one behind the other with blanks between them, are
scanned to the same tokens. Cut off behind a token, the text is read as this token alone. A blank
behind it changes nothing: only strings have blanks inside, and a string ends with its second quote
whatever comes then.
-/

namespace ClassCheck

/-! ## Texts of tokens and blanks -/

namespace Pattern

open Lexeme

theorem isBlank_of_isDigit {c : Char} (h : c.isDigit = true) : isBlank c = false :=
  isBlank_of_isWordChar (isWordChar_of_isDigit h)

private theorem not_blank_of_mem_digits {w : List Char} (h : w ∈ digits) :
    ∀ c ∈ w, isBlank c = false :=
  fun c hc => isBlank_of_isDigit ((mem_digits_iff.mp h).2 c hc)

private theorem not_blank_of_mem_exponent {w : List Char} (h : w ∈ exponent) :
    ∀ c ∈ w, isBlank c = false := by
  obtain ⟨mark, sign, ds, hds, hmark, hsign, rfl⟩ := mem_exponent_iff.mp h
  refine List.forall_mem_cons.mpr
    ⟨?_, List.forall_mem_append.mpr ⟨?_, not_blank_of_mem_digits hds⟩⟩
  · rcases hmark with rfl | rfl <;> rfl
  · rcases hsign with rfl | rfl | rfl
    · exact List.forall_mem_nil _
    · exact List.forall_mem_singleton.mpr rfl
    · exact List.forall_mem_singleton.mpr rfl

private theorem not_blank_of_mem_float {w : List Char} (h : w ∈ language .float) :
    ∀ c ∈ w, isBlank c = false := by
  obtain ⟨ds, fs, ex, hds, hfs, hex, rfl⟩ | ⟨ds, ex, hds, hex, rfl⟩ := mem_float_iff.mp h
  · have hexponent : ∀ c ∈ ex, isBlank c = false := by
      rcases hex with rfl | hex
      · exact List.forall_mem_nil _
      · exact not_blank_of_mem_exponent hex
    have hfraction : ∀ c ∈ fs, isBlank c = false := fun c hc => isBlank_of_isDigit (hfs c hc)
    refine List.forall_mem_append.mpr ⟨not_blank_of_mem_digits hds, ?_⟩
    exact List.forall_mem_cons.mpr ⟨rfl, List.forall_mem_append.mpr ⟨hfraction, hexponent⟩⟩
  · exact List.forall_mem_append.mpr
      ⟨not_blank_of_mem_digits hds, not_blank_of_mem_exponent hex⟩

/-- Of all tokens only strings have blanks inside. -/
theorem not_blank_of_mem {P : Pattern} (hP : P.isTrivia = false) (hstring : P ≠ .string)
    {w : List Char} (h : w ∈ P.language) : ∀ c ∈ w, isBlank c = false := by
  have hname : w ∈ language .identifier → ∀ c ∈ w, isBlank c = false := by
    intro hname
    obtain ⟨c, more, hmore, hc, rfl⟩ := mem_identifier_iff.mp hname
    exact List.forall_mem_cons.mpr ⟨isBlank_of_isWordChar (isWordChar_of_isWordStart hc),
      fun d hd => isBlank_of_isWordChar (hmore d hd)⟩
  cases P with
  | blanks | lineComment | blockComment => cases hP
  | string => exact absurd rfl hstring
  | keyword word => exact hname (mem_identifier_of_keyword h)
  | identifier => exact hname h
  | integer => exact not_blank_of_mem_digits h
  | float => exact not_blank_of_mem_float h
  | sign symbol =>
    have hsigns : symbol.spelling.toList.all (!isBlank ·) = true := by cases symbol <;> rfl
    rw [language, mem_fixed_iff] at h
    rw [h]
    exact fun c hc => by simpa using List.all_eq_true.mp hsigns c hc

end Pattern

/-! ## A blank behind a token -/

namespace Lexeme

private theorem Shape.isTrivia_of_pattern? {shape : Shape} {P : Pattern}
    (h : shape.pattern? = some P) : P.isTrivia = false := by
  cases shape <;> cases h <;> rfl

/-- A lexeme that is a token is of some sort. -/
theorem Shape.exists_pattern {shape : Shape} {text : String} {k : TokenKind}
    (hk : classify shape text = .ok k) : ∃ P, shape.pattern? = some P := by
  cases hP : shape.pattern? with
  | some P => exact ⟨P, rfl⟩
  | none =>
    obtain ⟨fault, hfault⟩ := (exists_fault_iff shape text).mpr hP
    rw [hk] at hfault
    cases hfault

/-- A lexeme of some sort is a token. -/
theorem Shape.exists_kind {shape : Shape} (text : String) (hP : shape.pattern? ≠ none) :
    ∃ k, classify shape text = .ok k := by
  cases hk : classify shape text with
  | ok k => exact ⟨k, rfl⟩
  | error fault => exact absurd ((exists_fault_iff shape text).mp ⟨fault, hk⟩) hP

section

variable {shape : Shape} {c b : Char} {more : List Char} {k : TokenKind}

/-- A token that is taken up to the end of a text does not open a comment. -/
theorem Heads.not_open (h : Heads shape c more [])
    (hk : classify shape (String.ofList (c :: more)) = .ok k) (hb : isBlank b = true)
    (rest : List Char) : ¬ (c = '/' ∧ (more ++ b :: rest).head? = some '*') := by
  rintro ⟨rfl, hstar⟩
  cases more with
  | nil =>
    cases hstar
    cases hb
  | cons d ds =>
    cases hstar
    have hshape : Shape.openComment = shape := congrArg Prod.fst h.tail
    subst hshape
    cases hk

/-- No token but a string goes on over a blank. -/
theorem tail_le_before_blank (hb : isBlank b = true) (rest : List Char)
    (hquote : c ≠ '"') (hP : (tail c (more ++ b :: rest)).1.pattern? ≠ none) :
    (tail c (more ++ b :: rest)).2 ≤ more.length := by
  obtain ⟨P, hP⟩ := Option.ne_none_iff_exists'.mp hP
  have hmem := Pattern.tail_mem hP
  have hstring : P ≠ .string := by
    rintro rfl
    obtain ⟨items, -, hitems⟩ := Pattern.mem_string_iff.mp hmem
    exact hquote (List.cons.inj hitems).1
  by_contra hlonger
  -- The blank would be inside the token.
  have hin : b ∈ (more ++ b :: rest).take (tail c (more ++ b :: rest)).2 := by
    obtain ⟨n, hn⟩ := Nat.exists_eq_add_of_lt (Nat.lt_of_not_le hlonger)
    rw [hn, Nat.add_assoc, List.take_length_add_append]
    exact List.mem_append_right _ List.mem_cons_self
  have hnone := Pattern.not_blank_of_mem (Shape.isTrivia_of_pattern? hP) hstring hmem b
    (List.mem_cons_of_mem c hin)
  rw [hb] at hnone
  cases hnone

/-- A token that is taken up to the end of a text is taken where a blank stands there instead. -/
theorem Heads.before_blank (h : Heads shape c more [])
    (hk : classify shape (String.ofList (c :: more)) = .ok k) (hb : isBlank b = true)
    (rest : List Char) : Heads shape c more (b :: rest) := by
  have hopen := h.not_open hk hb rest
  obtain ⟨P, hP⟩ := Shape.exists_pattern hk
  have hmem := h.mem_language hP
  have htail := h.tail
  rw [List.append_nil] at htail
  refine ⟨triviumLength_of_front h.noTrivia hopen, ?_⟩
  by_cases hquote : c = '"'
  · subst hquote
    have hstring : shape = .string := by
      have hquoted : stringTail more = (shape, more.length) := htail
      obtain ⟨htaken, -⟩ | htaken := Pattern.stringTail_cases more
      · exact (Prod.mk.inj (hquoted.symm.trans htaken)).1
      · obtain rfl := (Prod.mk.inj (hquoted.symm.trans htaken)).1
        cases hP
    subst hstring
    cases hP
    exact (Pattern.stringTail_of_string hmem (List.prefix_append _ _)).2
  · have hshape := (Pattern.length_le_of_token (Shape.isTrivia_of_pattern? hP) hmem
      (List.prefix_append more (b :: rest)) hopen).1
    have hle := tail_le_before_blank hb rest hquote hshape
    -- What is taken with the blank behind it is taken without it, and so it is the token.
    obtain ⟨kind, hkind⟩ := Shape.exists_kind "" hshape
    generalize htaken : Lexeme.tail c (more ++ b :: rest) = taken at hle hkind ⊢
    rw [← htail, tail_of_append htaken hle hkind]

end

/-- Blanks in any number are trivia. -/
theorem trivia_of_blanks {w : List Char} (h : ∀ c ∈ w, isBlank c = true) : Trivia w := by
  induction w with
  | nil => exact .nil
  | cons c w ih =>
    rw [List.forall_mem_cons] at h
    exact .blank h.1 (ih h.2)

end Lexeme

/-! ## Texts with blanks between them -/

/-- Texts one behind the other with blanks, at least one, behind each of them; only the last may go
without. -/
inductive Spaced : List String → List Char → Prop
  /-- No text. -/
  | nil : Spaced [] []
  /-- A last text with no blanks behind it. -/
  | last (text : String) : Spaced [text] text.toList
  /-- A text, blanks and more texts. -/
  | more (text : String) {gap rest : List Char} {texts : List String} :
      gap ∈ Pattern.language .blanks → Spaced texts rest →
      Spaced (text :: texts) (text.toList ++ (gap ++ rest))

namespace Scanner

open Lexeme

/-- Tokens that were read once are read again from their texts with blanks between them. -/
theorem Reads.emits_spaced {s s' : Scanner} {us : List Token}
    (h : Reads s (us.map Except.ok) s') {cs : List Char}
    (hcs : Spaced (us.map fun u => u.kind.spelling) cs) : Emits cs (us.map Token.kind) [] := by
  induction us generalizing s cs with
  | nil =>
    cases hcs
    exact emits_nil
  | cons u us ih =>
    rw [List.map_cons] at h
    generalize hfirst : (Except.ok u : Answer) = a at h
    cases h with
    | @lexeme shape c w more rest offset _ _ hw hheads hrest =>
      have hkind := (Answer.eq_of_ofLexeme_eq_ok hfirst.symm).1
      have htext : u.kind.spelling.toList = c :: more := by
        rw [(hheads.spelling hkind).2, String.toList_ofList]
      have halone : Heads shape c more [] := by
        rw [← List.nil_append rest] at hheads
        exact hheads.of_append hkind
      rw [List.map_cons] at hcs
      generalize hus : us.map (fun u => u.kind.spelling) = texts at hcs
      cases hcs with
      | last =>
        obtain rfl := List.map_eq_nil_iff.mp hus
        rw [htext]
        exact emits_lexeme halone hkind
      | @more _ gap rest' _ hgap hmore =>
        obtain ⟨hne, hblank⟩ := Pattern.mem_blanks_iff.mp hgap
        obtain ⟨b, gap, rfl⟩ := List.exists_cons_of_ne_nil hne
        have hhead : Emits (c :: more) [u.kind] (b :: gap ++ rest' ++ []) :=
          emits_lexeme (halone.before_blank hkind (hblank b List.mem_cons_self) _) hkind
        have htail := (ih hrest (hus ▸ hmore)).trivia (trivia_of_blanks hblank)
        rw [htext]
        exact hhead.append htail

end Scanner

/-- Every token of a text stands over its own spelling, and the end of the text over nothing. -/
theorem slices_of_tokenize {source : String} {ts : List Token} (h : tokenize source = .ok ts) :
    ts.map (fun t => Text.slice? source t.span) = ts.map fun t => some t.kind.spelling := by
  obtain ⟨us, s', rfl, hreads, hend⟩ := Scanner.exists_reads_of_tokenize h
  have htiles : Scanner.Tiles source (Text.byteLength []) (us.map Except.ok) :=
    hreads.tiles hend rfl rfl
  apply List.map_congr_left
  intro t ht
  rcases List.mem_append.mp ht with hus | heof
  · exact (htiles.spelled t (List.mem_map_of_mem hus)).2
  · obtain rfl := List.mem_singleton.mp heof
    refine Text.slice?_eq_some_iff.mpr ⟨source.toList, [], ?_, ?_⟩
    · simp [TokenKind.spelling]
    · simp [TokenKind.spelling, Span.point, Text.byteLength_toList]

/-- The texts of the tokens of a source, written one behind the other with blanks between them, are
scanned again, to tokens of the same kinds that stand over the same texts. -/
theorem tokens_of_respaced {source : String} {ts : List Token} (h : tokenize source = .ok ts) :
    ∃ lexemes : List String,
      ts.map (fun t => Text.slice? source t.span) = (lexemes ++ [""]).map some ∧
      ∀ text : String, Spaced lexemes text.toList →
        ∃ us, tokenize text = .ok us ∧ us.map Token.kind = ts.map Token.kind ∧
          us.map (fun u => Text.slice? text u.span) =
            ts.map fun t => Text.slice? source t.span := by
  have hslices := slices_of_tokenize h
  obtain ⟨us, s', rfl, hreads, -⟩ := Scanner.exists_reads_of_tokenize h
  refine ⟨us.map fun u => u.kind.spelling, ?_, fun text htext => ?_⟩
  · rw [hslices, List.map_append, List.map_append, List.map_map]
    rfl
  · obtain ⟨vs, htokens, hkinds⟩ := (hreads.emits_spaced htext).tokens 0
    rw [← @List.map_singleton _ _ Token.kind ⟨.eof, .point source.utf8ByteSize⟩,
      ← List.map_append] at hkinds
    refine ⟨vs, htokens, hkinds, ?_⟩
    have hspelling := congrArg (List.map fun k => some (TokenKind.spelling k)) hkinds
    rw [List.map_map, List.map_map] at hspelling
    rw [slices_of_tokenize htokens, hslices]
    exact hspelling

/-- A slash and a star that make no comment, a number that ends with its point before what would be
its exponent, and a string of one blank. -/
def closeCallsText : String := "/ *1. e5\" \""

/-- The tokens of the text. -/
def closeCallsTokens : List Token := [
  ⟨.symbol .slash, ⟨0, 1⟩⟩, ⟨.symbol .star, ⟨2, 3⟩⟩, ⟨.float "1.", ⟨3, 5⟩⟩,
  ⟨.identifier "e5", ⟨6, 8⟩⟩, ⟨.string "\" \"", ⟨8, 11⟩⟩, ⟨.eof, ⟨11, 11⟩⟩]

/-- The same tokens with other blanks between them. -/
def closeCallsRespaced : String := "/\n*\t1.\x0ce5\r \" \""

/-- Tokens that could run into each other stay apart whatever the blanks are. -/
theorem closeCalls_respaced :
    tokenize closeCallsText = .ok closeCallsTokens ∧
    Spaced ["/", "*", "1.", "e5", "\" \""] closeCallsRespaced.toList ∧
    ∃ us, tokenize closeCallsRespaced = .ok us ∧
      us.map Token.kind = closeCallsTokens.map Token.kind := by
  have htokens : tokenize closeCallsText = .ok closeCallsTokens :=
    tokenize_eq_ok (by decide +kernel)
  have hspaced : Spaced ["/", "*", "1.", "e5", "\" \""] closeCallsRespaced.toList := by
    have hgap : ∀ {w}, w ≠ [] → w.all Lexeme.isBlank = true → w ∈ Pattern.language .blanks :=
      fun hne hall => Pattern.mem_blanks_iff.mpr ⟨hne, List.all_eq_true.mp hall⟩
    have hname : Spaced ["e5", "\" \""] "e5\r \" \"".toList :=
      .more "e5" (hgap (List.cons_ne_nil '\r' [' ']) rfl) (.last "\" \"")
    have hnumber : Spaced ["1.", "e5", "\" \""] "1.\x0ce5\r \" \"".toList :=
      .more "1." (hgap (List.cons_ne_nil '\x0c' []) rfl) hname
    have hstar : Spaced ["*", "1.", "e5", "\" \""] "*\t1.\x0ce5\r \" \"".toList :=
      .more "*" (hgap (List.cons_ne_nil '\t' []) rfl) hnumber
    exact .more "/" (hgap (List.cons_ne_nil '\n' []) rfl) hstar
  obtain ⟨lexemes, hlexemes, hrespaced⟩ := tokens_of_respaced htokens
  have htexts : lexemes = ["/", "*", "1.", "e5", "\" \""] := by
    have hslices : closeCallsTokens.map (fun t => Text.slice? closeCallsText t.span) =
        (["/", "*", "1.", "e5", "\" \""] ++ [""]).map some := by
      decide
    rw [hslices] at hlexemes
    have hinj : Function.Injective (List.map (some : String → Option String)) :=
      List.map_injective_iff.mpr (Option.some_injective _)
    exact (List.append_cancel_right (hinj hlexemes)).symm
  subst htexts
  obtain ⟨us, hus, hkinds, -⟩ := hrespaced _ hspaced
  exact ⟨htokens, hspaced, us, hus, hkinds⟩

end ClassCheck
