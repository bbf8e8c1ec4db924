import ClassCheck.Proofs.LongestMatch
import ClassCheck.Proofs.ReadBack

/-!
# String literals and their values

Every text can be written as a string literal: seven characters have an escape, and all others stand
for themselves. The other way round, the scanner takes a string only where it is closed, so that a
string token falls into items between two quotes. Its value is then found, unless one of the items
is an escape without a meaning, and the first of these is reported.
-/

namespace ClassCheck

/-! ## Writing literals -/

namespace Text

/-- A character in a string literal, escaped if there is an escape for it. -/
def escapedChar : Char → List Char
  | '\n' => ['\\', 'n']
  | '\t' => ['\\', 't']
  | '\r' => ['\\', 'r']
  | '\x08' => ['\\', 'b']
  | '\x0c' => ['\\', 'f']
  | '\\' => ['\\', '\\']
  | '"' => ['\\', '"']
  | c => [c]

/-- A text as a string literal. -/
def literal (text : String) : String :=
  String.ofList ('"' :: (text.toList.flatMap escapedChar ++ ['"']))

private theorem writes_escapedChar (c : Char) : StringItem.Writes escapedChar c := by
  by_cases hescape : c ∈ ['\n', '\t', '\r', '\x08', '\x0c', '\\', '"']
  · simp only [List.mem_cons, List.not_mem_nil, or_false] at hescape
    obtain rfl | rfl | rfl | rfl | rfl | rfl | rfl := hescape <;>
      exact ⟨.escape _ (by decide), rfl, rfl⟩
  · simp only [List.mem_cons, List.not_mem_nil, or_false, not_or] at hescape
    obtain ⟨hline, htab, hreturn, hback, hform, hbackslash, hquote⟩ := hescape
    refine ⟨.plain c ⟨hquote, hbackslash, hline⟩, ?_, rfl⟩
    exact escapedChar.eq_8 c hline htab hreturn hback hform hbackslash hquote

/-- A literal is made of items that stand for the characters of the text. -/
theorem exists_items_of_literal (text : String) :
    ∃ items : List StringItem, literal text = StringItem.quoted items ∧
      items.mapM StringItem.value = .ok text.toList := by
  obtain ⟨items, hitems, hvalues⟩ :=
    StringItem.exists_items fun c (_ : c ∈ text.toList) => writes_escapedChar c
  exact ⟨items, by rw [literal, hitems, StringItem.quoted], hvalues⟩

/-- A literal of a text has that text as its value. -/
theorem stringValue_literal (text : String) : Parser.stringValue (literal text) = .ok text := by
  obtain ⟨items, hliteral, hvalues⟩ := exists_items_of_literal text
  rw [hliteral, StringItem.stringValue_quoted, hvalues]
  exact congrArg Except.ok String.ofList_toList

end Text

/-- Items between quotes are one token. -/
theorem tokenize_quoted (items : List StringItem) :
    tokenize (StringItem.quoted items) =
      .ok [⟨.string (StringItem.quoted items), ⟨0, (StringItem.quoted items).utf8ByteSize⟩⟩,
        ⟨.eof, .point (StringItem.quoted items).utf8ByteSize⟩] := by
  have hlength : Text.byteLength ('"' :: (items.flatMap StringItem.chars ++ ['"'])) =
      (StringItem.quoted items).utf8ByteSize := by
    rw [← Text.byteLength_toList, StringItem.quoted, String.toList_ofList]
  have htext : Scanner.ofText (StringItem.quoted items) =
      ⟨0, '"' :: (items.flatMap StringItem.chars ++ ['"'])⟩ :=
    congrArg (Scanner.mk 0) String.toList_ofList
  have htokens := Scanner.tokens_lexeme (StringItem.heads_quoted items []) 0
  rw [List.append_nil] at htokens
  dsimp only [Lexeme.classify] at htokens
  rw [Nat.zero_add, hlength, Scanner.tokens_nil] at htokens
  rw [tokenize, htext, htokens]
  rfl

/-! ## Values of string tokens -/

/-- The characters that have a meaning behind a backslash. -/
def Parser.escapes : List Char := ['n', 't', 'r', 'b', 'f', '\\', '"']

private theorem Parser.escaped?_eq_none_iff (c : Char) : escaped? c = none ↔ c ∉ escapes := by
  constructor
  · rintro hnone hin
    simp only [escapes, List.mem_cons, List.not_mem_nil, or_false] at hin
    obtain rfl | rfl | rfl | rfl | rfl | rfl | rfl := hin <;> cases hnone
  · intro hout
    simp only [escapes, List.mem_cons, List.not_mem_nil, or_false, not_or] at hout
    obtain ⟨hn, ht, hr, hb, hf, hbackslash, hquote⟩ := hout
    exact escaped?.eq_8 c hn ht hr hb hf hbackslash hquote

namespace StringItem

/-- Every escape among the items has a meaning. -/
def Resolved (items : List StringItem) : Prop :=
  ∀ c line, escape c line ∈ items → c ∈ Parser.escapes

/-- An item has a value, or is an escape that is not known. -/
theorem value_cases (item : StringItem) :
    (∃ d, item.value = .ok d) ∧ Resolved [item] ∨
      ∃ c line, item = escape c line ∧ c ∉ Parser.escapes ∧
        item.value = .error (.unknownEscape c) := by
  cases item with
  | plain c special =>
    refine .inl ⟨⟨c, rfl⟩, fun d line hin => ?_⟩
    cases List.mem_singleton.mp hin
  | escape c line =>
    cases hescaped : Parser.escaped? c with
    | none =>
      refine .inr ⟨c, line, rfl, (Parser.escaped?_eq_none_iff c).mp hescaped, ?_⟩
      rw [value, hescaped]
    | some d =>
      refine .inl ⟨⟨d, by rw [value, hescaped]⟩, fun e line hin => ?_⟩
      cases List.mem_singleton.mp hin
      by_contra hout
      rw [(Parser.escaped?_eq_none_iff c).mpr hout] at hescaped
      cases hescaped

/-- The values of all items are found, or the first escape without a meaning is. -/
theorem mapM_value_cases (items : List StringItem) :
    (∃ ds, items.mapM value = .ok ds ∧ items.map value = ds.map .ok ∧ Resolved items) ∨
      ∃ before c line after, items = before ++ escape c line :: after ∧ Resolved before ∧
        c ∉ Parser.escapes ∧ items.mapM value = .error (.unknownEscape c) := by
  induction items with
  | nil => exact .inl ⟨[], rfl, rfl, fun _ _ hin => absurd hin List.not_mem_nil⟩
  | cons item items ih =>
    rw [List.mapM_cons]
    obtain ⟨⟨d, hvalue⟩, hitem⟩ | ⟨c, line, rfl, hout, hvalue⟩ := item.value_cases
    · have hcons : ∀ {more}, Resolved more → Resolved (item :: more) := by
        intro more hmore c line hin
        rcases List.mem_cons.mp hin with hfirst | hin
        · exact hitem c line (List.mem_singleton.mpr hfirst)
        · exact hmore c line hin
      obtain ⟨ds, hvalues, hmap, hall⟩ | ⟨before, c, line, after, rfl, hbefore, hout, hvalues⟩ := ih
      · refine .inl ⟨d :: ds, ?_, ?_, hcons hall⟩
        · rw [hvalue, hvalues]
          rfl
        · rw [List.map_cons, List.map_cons, hvalue, hmap]
      · refine .inr ⟨item :: before, c, line, after, rfl, hcons hbefore, hout, ?_⟩
        rw [hvalue, hvalues]
        rfl
    · have hnone : Resolved [] := fun _ _ hin => absurd hin List.not_mem_nil
      refine .inr ⟨[], c, line, items, rfl, hnone, hout, ?_⟩
      rw [hvalue]
      rfl

end StringItem

namespace Scanner

open Lexeme

/-- A step answers with the end of the text or to a lexeme. -/
theorem next_cases (s : Scanner) :
    (∃ span, s.next.1 = .ok ⟨.eof, span⟩) ∨
      ∃ shape offset c more rest, Heads shape c more rest ∧
        s.next.1 = Answer.ofLexeme shape offset (c :: more) := by
  have hnone := (Skips.of_triviaLength s.rest).2
  replace hnone : triviumLength s.skipTrivia.rest = 0 := hnone
  cases hrest : s.skipTrivia.rest with
  | nil =>
    refine .inl ⟨.point s.skipTrivia.offset, ?_⟩
    rw [next, lexeme, hrest]
  | cons c cs =>
    rw [hrest] at hnone
    obtain ⟨shape, more, rest, rfl, hheads⟩ := exists_heads hnone
    refine .inr ⟨shape, s.skipTrivia.offset, c, more, rest, hheads, ?_⟩
    rw [next_of_heads hrest hheads]

/-- A string token is made of items between quotes. -/
theorem exists_items_of_next {s : Scanner} {t : Token} (h : s.next.1 = .ok t) {text : String}
    (htext : t.kind = .string text) : ∃ items, text = StringItem.quoted items := by
  obtain ⟨span, hend⟩ | ⟨shape, offset, c, more, rest, hheads, hanswer⟩ := s.next_cases
  · rw [hend] at h
    cases h
    cases htext
  · have hkind := (Answer.eq_of_ofLexeme_eq_ok (hanswer.symm.trans h)).1
    obtain ⟨P, hP, hlongest⟩ := hheads.token hkind
    have hspelling := (hheads.spelling hkind).2
    rw [htext] at hP hspelling
    cases hP
    obtain ⟨inside, hinside, hquoted⟩ := Pattern.mem_string_iff.mp hlongest.matched
    obtain ⟨items, rfl⟩ := Pattern.mem_kstar_stringItem_iff.mp hinside
    exact ⟨items, hspelling.trans (congrArg String.ofList hquoted)⟩

end Scanner

/-- A string that a scanner answers with is a row of items in quotes. -/
theorem TokenStream.exists_items_of_mem_answers {s : Scanner} {atEof : Bool} {calls : Nat}
    {t : Token} (h : .ok t ∈ answers calls ⟨none, s, atEof⟩) {text : String}
    (htext : t.kind = .string text) : ∃ items, text = StringItem.quoted items := by
  induction calls generalizing s atEof with
  | zero => cases h
  | succ calls ih =>
    cases atEof with
    | true =>
      rw [answers_of_atEof] at h
      cases List.eq_of_mem_replicate h
      cases htext
    | false =>
      rw [answers_succ] at h
      rcases List.mem_cons.mp h with hfirst | hmore
      · exact Scanner.exists_items_of_next hfirst.symm htext
      · exact ih hmore

/-- A text written as a string literal is scanned as one token and its end, and the value of the
token is the text. A string token of any source stands for a value, unless a backslash in it comes
before a character other than the seven that have a meaning there; then the first of these
characters is reported. It is never called malformed, and never said to end in a backslash. -/
theorem string_literals_keep_values :
    (∀ text : String,
      tokenize (Text.literal text) =
        .ok [⟨.string (Text.literal text), ⟨0, (Text.literal text).utf8ByteSize⟩⟩,
          ⟨.eof, .point (Text.literal text).utf8ByteSize⟩] ∧
      Parser.stringValue (Text.literal text) = .ok text) ∧
    ∀ (source : String) (calls : Nat) (t : Token) (text : String),
      .ok t ∈ (TokenStream.ofText source).answers calls → t.kind = .string text →
      (∃ items : List StringItem, text = StringItem.quoted items ∧
        ((∃ value, Parser.stringValue text = .ok value ∧ StringItem.Resolved items ∧
            items.map StringItem.value = value.toList.map .ok) ∨
          ∃ before c line after, items = before ++ .escape c line :: after ∧
            StringItem.Resolved before ∧ c ∉ Parser.escapes ∧
            Parser.stringValue text = .error (.unknownEscape c))) ∧
      Parser.stringValue text ≠ .error .malformedString ∧
      Parser.stringValue text ≠ .error .danglingEscape := by
  refine ⟨fun text => ⟨?_, Text.stringValue_literal text⟩, fun source calls t text hin htext => ?_⟩
  · obtain ⟨items, hliteral, -⟩ := Text.exists_items_of_literal text
    rw [hliteral, tokenize_quoted]
  · obtain ⟨items, rfl⟩ := TokenStream.exists_items_of_mem_answers hin htext
    rw [StringItem.stringValue_quoted]
    obtain ⟨ds, hvalues, hmap, hall⟩ | ⟨before, c, line, after, hsplit, hbefore, hout, hvalues⟩ :=
      StringItem.mapM_value_cases items
    · rw [hvalues]
      refine ⟨⟨items, rfl, .inl ⟨String.ofList ds, rfl, hall, ?_⟩⟩, ?_, ?_⟩
      · rw [hmap, String.toList_ofList]
      · rintro ⟨⟩
      · rintro ⟨⟩
    · rw [hvalues]
      refine ⟨⟨items, rfl, .inr ⟨before, c, line, after, hsplit, hbefore, hout, rfl⟩⟩, ?_, ?_⟩
      · rintro ⟨⟩
      · rintro ⟨⟩

/-- A string that ends in an escaped backslash, with an escape of no meaning before it. -/
def crookedText : String := "\"\\n\\q\\\\\""

/-- The escape is reported though the string is closed behind a backslash. -/
theorem crooked_escape_reported :
    .ok ⟨.string crookedText, ⟨0, 8⟩⟩ ∈ (TokenStream.ofText crookedText).answers 1 ∧
    Parser.stringValue crookedText = .error (.unknownEscape 'q') ∧
    Parser.stringValue (Text.literal "\x08\n\"\\") = .ok "\x08\n\"\\" ∧
    ∃ items : List StringItem, crookedText = StringItem.quoted items ∧
      ∃ before c line after, items = before ++ .escape c line :: after ∧
        StringItem.Resolved before ∧ c ∉ Parser.escapes ∧
        Parser.stringValue crookedText = .error (.unknownEscape c) := by
  have htoken : .ok ⟨.string crookedText, ⟨0, 8⟩⟩ ∈ (TokenStream.ofText crookedText).answers 1 := by
    have hskip : (Scanner.ofText crookedText).skipTrivia = .ofText crookedText :=
      Scanner.skipTrivia_of_triviumLength rfl
    have hnext : (Scanner.ofText crookedText).next.1 = .ok ⟨.string crookedText, ⟨0, 8⟩⟩ := by
      rw [Scanner.next, hskip]
      rfl
    exact List.mem_singleton.mpr hnext.symm
  have hfault : Parser.stringValue crookedText = .error (.unknownEscape 'q') := rfl
  obtain ⟨⟨items, hitems, hvalue⟩, -⟩ :=
    string_literals_keep_values.2 crookedText 1 _ crookedText htoken rfl
  refine ⟨htoken, hfault, (string_literals_keep_values.1 _).2, items, hitems, ?_⟩
  rcases hvalue with ⟨value, hok, -⟩ | hunknown
  · rw [hfault] at hok
    cases hok
  · exact hunknown

end ClassCheck
