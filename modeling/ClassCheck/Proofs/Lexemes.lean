import ClassCheck.Number.Shortest
import ClassCheck.Proofs.Grammar
import ClassCheck.Proofs.Scanning

/-!
# Texts of single tokens

What words, numbers, strings and signs look like, and what may stand behind them so that the
scanner takes exactly them. A word and a number go on as long as the characters fit, so behind
them stands a character that does not; a number is also kept apart from a point, which would
start a fraction.
-/

namespace ClassCheck

namespace Lexeme

/-- The text, if there is any, starts with a character that a word does not go on with. -/
def EndsWord (rest : List Char) : Prop := ∀ c, rest.head? = some c → isWordChar c = false

private theorem runLength_eq_zero {p : Char → Bool} {rest : List Char}
    (h : ∀ c, rest.head? = some c → p c = false) : runLength p rest = 0 := by
  cases rest with
  | nil => rfl
  | cons c cs => rw [runLength_cons, h c rfl, if_neg Bool.false_ne_true]

/-- A run ends exactly where a character does not fit. -/
theorem runLength_exact {p : Char → Bool} {as rest : List Char} (has : ∀ c ∈ as, p c = true)
    (hrest : ∀ c, rest.head? = some c → p c = false) :
    runLength p (as ++ rest) = as.length := by
  rw [runLength_append has, runLength_eq_zero hrest, Nat.add_zero]

/-- A digit can stand in a word. -/
theorem isWordChar_of_isDigit {c : Char} (h : c.isDigit = true) : isWordChar c = true := by
  simp [isWordChar, Char.isAlphanum, h]

/-- Where a word ends, no digit follows. -/
theorem EndsWord.isDigit {rest : List Char} (h : EndsWord rest) :
    ∀ c, rest.head? = some c → c.isDigit = false := by
  intro c hc
  by_contra hdigit
  have hword := isWordChar_of_isDigit (by simpa using hdigit)
  rw [h c hc] at hword
  cases hword

private theorem EndsWord.head?_ne {rest : List Char} (h : EndsWord rest) {c : Char}
    (hc : isWordChar c = true) : rest.head? ≠ some c := by
  intro hhead
  rw [h c hhead] at hc
  cases hc

/-- What is neither a blank nor the start of a comment is no trivia. -/
theorem triviumLength_eq_zero {c : Char} {cs : List Char} (hblank : isBlank c = false)
    (hhash : c ≠ '#') (hslash : c ≠ '/') : triviumLength (c :: cs) = 0 := by
  rw [triviumLength, if_neg (by simp [hblank]), if_neg hhash]
  exact fun _ hc _ => hslash hc

/-! ## Words -/

/-- No character of a word is a blank. -/
theorem isBlank_of_isWordChar {c : Char} (h : isWordChar c = true) : isBlank c = false := by
  by_contra hblank
  simp only [isBlank, Bool.or_eq_true, decide_eq_true_eq, Bool.not_eq_false] at hblank
  obtain (((rfl | rfl) | rfl) | rfl) | rfl := hblank <;> cases h

/-- So no trivia starts with a character of a word. -/
theorem triviumLength_of_isWordChar {c : Char} {cs : List Char} (h : isWordChar c = true) :
    triviumLength (c :: cs) = 0 := by
  refine triviumLength_eq_zero (isBlank_of_isWordChar h) ?_ ?_
  · rintro rfl
    cases h
  · rintro rfl
    cases h

/-- What a word starts with can also stand in it. -/
theorem isWordChar_of_isWordStart {c : Char} (h : isWordStart c = true) : isWordChar c = true := by
  simp only [isWordStart, Bool.or_eq_true] at h
  simp only [isWordChar, Char.isAlphanum, Bool.or_eq_true]
  exact h.imp_left .inl

/-- A word is taken up to where it ends. -/
theorem heads_word {c : Char} {more rest : List Char} (hc : isWordStart c = true)
    (hmore : ∀ d ∈ more, isWordChar d = true) (hrest : EndsWord rest) :
    Heads .word c more rest := by
  refine ⟨triviumLength_of_isWordChar (isWordChar_of_isWordStart hc), ?_⟩
  rw [tail, if_neg (by rintro rfl; cases hc), if_pos hc, runLength_exact hmore hrest]

/-! ## Numbers -/

/-- No word starts with a digit. -/
theorem isWordStart_of_isDigit {c : Char} (h : c.isDigit = true) : isWordStart c = false := by
  by_contra hstart
  unfold isWordStart Char.isAlpha Char.isUpper Char.isLower at hstart
  simp only [Bool.not_eq_false, Bool.or_eq_true, decide_eq_true_eq, Bool.and_eq_true,
    UInt32.le_iff_toNat_le, ge_iff_le] at hstart
  simp only [Char.isDigit, Bool.and_eq_true, decide_eq_true_eq, UInt32.le_iff_toNat_le,
    ge_iff_le] at h
  have hnine : '9'.val.toNat = 57 := rfl
  have hA : 'A'.val.toNat = 65 := rfl
  have ha : 'a'.val.toNat = 97 := rfl
  obtain (hupper | hlower) | rfl := hstart
  · omega
  · omega
  · exact absurd h.2 (by decide)

/-- A digit starts a number. -/
theorem tail_of_isDigit {c : Char} (hc : c.isDigit = true) (cs : List Char) :
    tail c cs = numberTail cs := by
  have hstart := isWordStart_of_isDigit hc
  rw [tail, if_neg (by rintro rfl; cases hc), if_neg (by simp [hstart]), if_pos hc]

private theorem exponentLength_of_endsWord {rest : List Char} (h : EndsWord rest) :
    exponentLength rest = 0 := by
  cases rest with
  | nil => rfl
  | cons c cs =>
    refine if_neg ?_
    rintro (rfl | rfl)
    · exact h.head?_ne (c := 'e') (by decide) rfl
    · exact h.head?_ne (c := 'E') (by decide) rfl

/-- An exponent as it is written behind its mark: digits, with a minus sign or none. -/
inductive ExponentText : List Char → Prop
  | plain {ds : List Char} : ds ≠ [] → (∀ d ∈ ds, d.isDigit = true) → ExponentText ds
  | minus {ds : List Char} : ds ≠ [] → (∀ d ∈ ds, d.isDigit = true) → ExponentText ('-' :: ds)

/-- An exponent is taken up to where the word ends. -/
theorem exponentLength_mark {ex rest : List Char} (hex : ExponentText ex)
    (hrest : EndsWord rest) : exponentLength ('e' :: (ex ++ rest)) = ex.length + 1 := by
  -- There is at least one digit, so that the length of the run of digits is not zero.
  have hsome : ∀ {ds : List Char}, ds ≠ [] → (∀ d ∈ ds, d.isDigit = true) →
      ∃ n, runLength Char.isDigit (ds ++ rest) = n + 1 ∧ ds.length = n + 1 := by
    intro ds hne hds
    have hpos := List.length_pos_of_ne_nil hne
    exact ⟨ds.length - 1, by rw [runLength_exact hds hrest.isDigit]; omega, by omega⟩
  cases hex with
  | @plain ds hne hds =>
    obtain ⟨n, hrun, hn⟩ := hsome hne hds
    have hsign : ∀ sign, sign.isDigit = false → ∀ tail, ex ++ rest = sign :: tail → False := by
      intro sign hsign tail heq
      obtain ⟨d, ds, rfl⟩ := List.exists_cons_of_ne_nil hne
      rw [List.cons_append, List.cons.injEq] at heq
      rw [← heq.1, hds d List.mem_cons_self] at hsign
      cases hsign
    rw [exponentLength, if_pos (.inl rfl)]
    · dsimp only
      rw [List.drop_zero, hrun, hn]
      dsimp only
      omega
    · exact hsign '+' rfl
    · exact hsign '-' rfl
  | @minus ds hne hds =>
    obtain ⟨n, hrun, hn⟩ := hsome hne hds
    rw [List.cons_append, exponentLength, if_pos (.inl rfl)]
    dsimp only
    rw [List.drop_succ_cons, List.drop_zero, hrun, List.length_cons, hn]
    dsimp only
    omega

/-- Digits are taken for an integer if no word goes on and no point follows. -/
theorem heads_integer {c : Char} {more rest : List Char} (hc : c.isDigit = true)
    (hmore : ∀ d ∈ more, d.isDigit = true) (hrest : EndsWord rest)
    (hdot : rest.head? ≠ some '.') : Heads .integer c more rest := by
  refine ⟨triviumLength_of_isWordChar (isWordChar_of_isDigit hc), ?_⟩
  rw [tail_of_isDigit hc, numberTail]
  dsimp only
  rw [runLength_exact hmore hrest.isDigit, List.drop_left]
  split
  · exact absurd rfl hdot
  · rw [exponentLength_of_endsWord hrest]

/-- Digits with a point among them are taken for a floating-point number. -/
theorem heads_point {c : Char} {whole fraction ex rest : List Char} (hc : c.isDigit = true)
    (hwhole : ∀ d ∈ whole, d.isDigit = true) (hfraction : ∀ d ∈ fraction, d.isDigit = true)
    (hex : exponentLength (ex ++ rest) = ex.length)
    (hrest : ∀ d, (ex ++ rest).head? = some d → d.isDigit = false) :
    Heads .float c (whole ++ '.' :: (fraction ++ ex)) rest := by
  refine ⟨triviumLength_of_isWordChar (isWordChar_of_isDigit hc), ?_⟩
  have hwholeRun : runLength Char.isDigit (whole ++ '.' :: (fraction ++ (ex ++ rest))) =
      whole.length := runLength_exact hwhole (by rintro d ⟨⟩; rfl)
  have hfractionRun := runLength_exact hfraction hrest
  simp only [List.append_assoc, List.cons_append]
  rw [tail_of_isDigit hc, numberTail]
  dsimp only
  rw [hwholeRun, List.drop_left]
  change (Shape.float, whole.length + 1 + runLength Char.isDigit (fraction ++ (ex ++ rest)) +
    exponentLength ((fraction ++ (ex ++ rest)).drop _)) = _
  rw [hfractionRun, List.drop_left, hex]
  simp only [List.length_append, List.length_cons]
  congr 1
  omega

/-- So is a digit with an exponent behind it. -/
theorem heads_mark {c : Char} {ex rest : List Char} (hc : c.isDigit = true)
    (hex : ExponentText ex) (hrest : EndsWord rest) : Heads .float c ('e' :: ex) rest := by
  refine ⟨triviumLength_of_isWordChar (isWordChar_of_isDigit hc), ?_⟩
  rw [List.cons_append, tail_of_isDigit hc, numberTail]
  dsimp only
  rw [runLength_cons, if_neg (by decide), List.drop_zero]
  split
  · rename_i heq
    cases heq
  · rw [exponentLength_mark hex hrest]
    simp

end Lexeme

/-! ## Strings -/

/-- What a string holds between its quotes, piece by piece. -/
inductive StringItem where
  /-- A character that stands for itself. -/
  | plain (c : Char) (special : c ≠ '"' ∧ c ≠ '\\' ∧ c ≠ '\n')
  /-- A backslash with a character behind it. -/
  | escape (c : Char) (line : c ≠ '\n')

namespace StringItem

/-- How the item is written. -/
def chars : StringItem → List Char
  | plain c _ => [c]
  | escape c _ => ['\\', c]

/-- The character that the item stands for. -/
def value : StringItem → Except SyntaxFault Char
  | plain c _ => .ok c
  | escape c _ =>
    match Parser.escaped? c with
    | some d => .ok d
    | none => .error (.unknownEscape c)

private theorem itemsLength_chars (item : StringItem) (cs : List Char) :
    Lexeme.itemsLength (item.chars ++ cs) = item.chars.length + Lexeme.itemsLength cs := by
  cases item with
  | plain c special =>
    rw [chars, List.singleton_append, Lexeme.itemsLength, if_neg (by simp [special]), Nat.add_comm]
    · rfl
    · exact fun _ _ hc => absurd hc special.2.1
  | escape c line =>
    rw [chars, List.cons_append, List.singleton_append, Lexeme.itemsLength, if_neg line,
      Nat.add_comm]
    rfl

/-- The items of a string are taken one after the other. -/
theorem itemsLength_flatMap (items : List StringItem) (cs : List Char) :
    Lexeme.itemsLength (items.flatMap chars ++ cs) =
      (items.flatMap chars).length + Lexeme.itemsLength cs := by
  induction items with
  | nil => rw [List.flatMap_nil, List.nil_append, List.length_nil, Nat.zero_add]
  | cons item items ih =>
    rw [List.flatMap_cons, List.append_assoc, itemsLength_chars, ih, List.length_append,
      Nat.add_assoc]

/-- The escapes of a string are resolved one after the other, up to the first that cannot be. -/
theorem unescape_flatMap (items : List StringItem) :
    Parser.unescape (items.flatMap chars) = items.mapM value := by
  induction items with
  | nil => rfl
  | cons item items ih =>
    rw [List.flatMap_cons, List.mapM_cons]
    cases item with
    | plain c special =>
      rw [chars, List.singleton_append, Parser.unescape, ih]
      · cases items.mapM value <;> rfl
      · exact fun hc => absurd hc special.2.1
      · exact fun _ _ hc => absurd hc special.2.1
    | escape c line =>
      rw [chars, List.cons_append, List.singleton_append, Parser.unescape, ih, value]
      cases Parser.escaped? c with
      | none => rfl
      | some d => cases items.mapM value <;> rfl

/-- Items between quotes. -/
def quoted (items : List StringItem) : String :=
  String.ofList ('"' :: (items.flatMap chars ++ ['"']))

/-- A string has the value that its items stand for, if all of them stand for one. -/
theorem stringValue_quoted (items : List StringItem) :
    Parser.stringValue (quoted items) = (items.mapM value).map String.ofList := by
  have hunquote : Parser.unquote? (quoted items).toList = some (items.flatMap chars) := by
    rw [quoted, String.toList_ofList, Parser.unquote?, if_pos (List.getLast?_concat ..),
      List.dropLast_concat]
  rw [Parser.stringValue, hunquote]
  dsimp only
  rw [unescape_flatMap]

/-- Items between quotes are taken as one string, whatever comes behind it. -/
theorem heads_quoted (items : List StringItem) (rest : List Char) :
    Lexeme.Heads .string '"' (items.flatMap chars ++ ['"']) rest := by
  refine ⟨rfl, ?_⟩
  have hlength : Lexeme.itemsLength (items.flatMap chars ++ '"' :: rest) =
      (items.flatMap chars).length := itemsLength_flatMap items _
  rw [Lexeme.tail, if_pos rfl, List.append_assoc, List.singleton_append, Lexeme.stringTail]
  rw [hlength, List.drop_left, List.length_append]
  rfl

/-- A character is written as an item that stands for it. -/
def Writes (write : Char → List Char) (c : Char) : Prop :=
  ∃ item : StringItem, write c = item.chars ∧ item.value = .ok c

/-- If each character is written as an item, a text is written as items that stand for it. -/
theorem exists_items {write : Char → List Char} {cs : List Char}
    (h : ∀ c ∈ cs, Writes write c) :
    ∃ items : List StringItem, cs.flatMap write = items.flatMap chars ∧
      items.mapM value = .ok cs := by
  induction cs with
  | nil => exact ⟨[], rfl, rfl⟩
  | cons c cs ih =>
    rw [List.forall_mem_cons] at h
    obtain ⟨item, hchars, hvalue⟩ := h.1
    obtain ⟨items, hitems, hvalues⟩ := ih h.2
    refine ⟨item :: items, ?_, ?_⟩
    · rw [List.flatMap_cons, List.flatMap_cons, hchars, hitems]
    · rw [List.mapM_cons, hvalue, hvalues]
      rfl

end StringItem

namespace Text

/-- A quoted text shows the character as it is, or escapes it in one of five short forms. -/
def QuotedShort (c : Char) : Prop := c ∈ ['"', '\\', '\n', '\r', '\t'] ∨ quotedChar c = [c]

instance (c : Char) : Decidable (QuotedShort c) := inferInstanceAs (Decidable (_ ∨ _))

/-- A short form is a backslash and a character that stands for the escaped one; everything else
needs no escape. -/
theorem QuotedShort.writes {c : Char} (h : QuotedShort c) : StringItem.Writes quotedChar c := by
  by_cases hshort : c ∈ ['"', '\\', '\n', '\r', '\t']
  · simp only [List.mem_cons, List.not_mem_nil, or_false] at hshort
    obtain rfl | rfl | rfl | rfl | rfl := hshort <;> exact ⟨.escape _ (by decide), rfl, rfl⟩
  · simp only [List.mem_cons, not_or] at hshort
    exact ⟨.plain c ⟨hshort.1, hshort.2.1, hshort.2.2.1⟩, h.resolve_left (by simp [hshort]), rfl⟩

/-- The characters between the quotes. -/
def quotedBody (cs : List Char) : List Char := cs.flatMap quotedChar

/-- A quoted text has the value that was quoted if its escapes are short. -/
theorem stringValue_quoted {value : String} (h : ∀ c ∈ value.toList, QuotedShort c) :
    Parser.stringValue (quoted value) = .ok value := by
  obtain ⟨items, hitems, hvalues⟩ := StringItem.exists_items fun c hc => (h c hc).writes
  rw [quoted, hitems]
  refine (StringItem.stringValue_quoted items).trans ?_
  rw [hvalues]
  exact congrArg Except.ok String.ofList_toList

end Text

namespace Lexeme

/-- The scanner takes a quoted text as a whole if its escapes are short. -/
theorem heads_quoted {cs : List Char} (h : ∀ c ∈ cs, Text.QuotedShort c) (rest : List Char) :
    Heads .string '"' (Text.quotedBody cs ++ ['"']) rest := by
  obtain ⟨items, hitems, -⟩ := StringItem.exists_items fun c hc => (h c hc).writes
  rw [Text.quotedBody, hitems]
  exact StringItem.heads_quoted items rest

/-! ## Signs -/

/-- The signs of one character that no other sign starts with. -/
def punctuation : List (Char × Symbol) := [
  ('(', .lparen), (')', .rparen), ('[', .lbracket), (']', .rbracket), ('\x7b', .lbrace),
  ('\x7d', .rbrace), (',', .comma), ('.', .dot), (';', .semi)]

/-- Punctuation is taken whatever comes behind it. -/
theorem heads_punctuation {c : Char} {sign : Symbol} (h : (c, sign) ∈ punctuation)
    (rest : List Char) : Heads (.sign sign) c [] rest := by
  simp only [punctuation, List.mem_cons, Prod.mk.injEq, List.not_mem_nil, or_false] at h
  obtain ⟨rfl, rfl⟩ | ⟨rfl, rfl⟩ | ⟨rfl, rfl⟩ | ⟨rfl, rfl⟩ | ⟨rfl, rfl⟩ | ⟨rfl, rfl⟩ | ⟨rfl, rfl⟩ |
    ⟨rfl, rfl⟩ | ⟨rfl, rfl⟩ := h
  all_goals exact ⟨rfl, by cases rest <;> rfl⟩

/-- The sign of a binary operator is taken where a blank comes behind it. -/
theorem heads_binary (op : BinaryOp) :
    ∃ c more, op.sign.toList = c :: more ∧
      ∀ rest, Heads (.sign op.symbol) c more (' ' :: rest) := by
  cases op <;> exact ⟨_, _, rfl, fun _ => ⟨rfl, rfl⟩⟩

/-- A sign of one character is taken where it makes no other sign with the next character. -/
theorem heads_single {c : Char} {sign : Symbol} {rest : List Char}
    (htail : ∀ cs, tail c cs = signTail c cs) (htrivia : ∀ cs, triviumLength (c :: cs) = 0)
    (hslash : c ≠ '/') (hsign : singleSymbol? c = some sign)
    (hrest : ∀ d, rest.head? = some d → pairSymbol? c d = none) :
    Heads (.sign sign) c [] rest := by
  have hsingle : singleTail c = (.sign sign, 0) := by rw [singleTail, hsign]
  refine ⟨htrivia _, ?_⟩
  rw [List.nil_append, htail]
  cases rest with
  | nil => exact hsingle
  | cons d ds =>
    rw [signTail, if_neg (fun h => hslash h.1), hrest d rfl]
    exact hsingle

/-- The sign of a unary operator is taken where it does not start a comparison. -/
theorem heads_unary (op : UnaryOp) :
    ∃ c, op.sign.toList = [c] ∧ ∀ rest, rest.head? ≠ some '=' →
      Heads (.sign op.symbol) c [] rest := by
  cases op with
  | neg => exact ⟨'-', rfl, fun rest _ => ⟨rfl, by cases rest <;> rfl⟩⟩
  | plus => exact ⟨'+', rfl, fun rest _ => ⟨rfl, by cases rest <;> rfl⟩⟩
  | not =>
    refine ⟨'!', rfl, fun rest hrest => ?_⟩
    refine heads_single (fun _ => rfl) (fun _ => rfl) (by decide) rfl fun d hd => ?_
    rw [hd] at hrest
    unfold pairSymbol?
    split <;> simp_all

/-- A reference mark is taken where it does not start a conjunction. -/
theorem heads_amp {rest : List Char} (hrest : rest.head? ≠ some '&') :
    Heads (.sign .amp) '&' [] rest := by
  refine heads_single (fun _ => rfl) (fun _ => rfl) (by decide) rfl fun d hd => ?_
  rw [hd] at hrest
  unfold pairSymbol?
  split <;> simp_all

end Lexeme

/-! ## Words as they are written -/

/-- A text that is scanned as a word. -/
def IsWord (text : String) : Prop :=
  ∃ c more, text.toList = c :: more ∧ Lexeme.isWordStart c = true ∧
    ∀ d ∈ more, Lexeme.isWordChar d = true

/-- Reserved words are words. -/
theorem Keyword.isWord_spelling (word : Keyword) : IsWord word.spelling := by
  have hall : word.spelling.toList.head?.any Lexeme.isWordStart = true ∧
      word.spelling.toList.tail.all Lexeme.isWordChar = true := by
    cases word <;> exact ⟨rfl, rfl⟩
  unfold IsWord
  cases htext : word.spelling.toList with
  | nil =>
    rw [htext] at hall
    cases hall.1
  | cons c more =>
    rw [htext] at hall
    exact ⟨c, more, rfl, hall.1, List.all_eq_true.mp hall.2⟩

/-- A reserved word is found by its spelling. -/
theorem Keyword.ofSpelling?_spelling (word : Keyword) : ofSpelling? word.spelling = some word := by
  cases word <;> rfl

/-! ## Numbers as they are written -/

namespace Number

/-- Decimal digits are digits. -/
theorem isDigit_of_mem_toDigits {n : Nat} : ∀ d ∈ Nat.toDigits 10 n, d.isDigit = true :=
  fun _ hd => Nat.isDigit_of_mem_toDigits (by decide) (by decide) hd

/-- A number is read back from its digits. -/
theorem digits?_toDigits (n : Nat) : digits? (Nat.toDigits 10 n) = some n := by
  have hvalue : ofDigits (Nat.toDigits 10 n) = n := Nat.ofDigitChars_ten_toDigits
  rw [digits?, if_pos ⟨Nat.toDigits_ne_nil, List.all_eq_true.mpr isDigit_of_mem_toDigits⟩, hvalue]

/-- A whole number is written by its digits. -/
theorem toList_toString_ofNat (n : Nat) : (toString (n : Int)).toList = Nat.toDigits 10 n :=
  Nat.toList_repr

/-- A negative one has a minus sign before them. -/
theorem toList_toString_negSucc (n : Nat) :
    (toString (Int.negSucc n)).toList = '-' :: Nat.toDigits 10 (n + 1) := by
  change ("-" ++ Nat.repr (n + 1)).toList = _
  rw [String.toList_append, Nat.toList_repr]
  rfl

/-- A text of digits has no sign. -/
theorem readInteger?_of_isDigit {text : String} (h : ∀ c ∈ text.toList, c.isDigit = true) :
    readInteger? text = (digits? text.toList).bind fun n => inRange? n := by
  unfold readInteger?
  split
  · rename_i heq
    rw [heq] at h
    exact absurd (h '-' List.mem_cons_self) (by decide)
  · rename_i heq
    rw [heq] at h
    exact absurd (h '+' List.mem_cons_self) (by decide)
  · rfl

/-- The number of a text of digits is read again from the text it is written as. -/
theorem readInteger?_toString {text : String} {value : Int}
    (htext : ∀ c ∈ text.toList, c.isDigit = true) (h : readInteger? text = some value) :
    (∀ c ∈ (toString value).toList, c.isDigit = true) ∧ (toString value).toList ≠ [] ∧
      readInteger? (toString value) = some value := by
  rw [readInteger?_of_isDigit htext] at h
  obtain ⟨n, -, hrange⟩ := Option.bind_eq_some_iff.mp h
  have hvalue : value = n := by
    unfold inRange? at hrange
    split at hrange
    · exact (Option.some.inj hrange).symm
    · cases hrange
  subst hvalue
  have hdigits := toList_toString_ofNat n
  have hall : ∀ c ∈ (toString (n : Int)).toList, c.isDigit = true :=
    hdigits ▸ isDigit_of_mem_toDigits
  refine ⟨hall, hdigits ▸ Nat.toDigits_ne_nil, ?_⟩
  rw [readInteger?_of_isDigit hall, hdigits, digits?_toDigits]
  exact hrange

/-- An exponent is written as exponents are read. -/
theorem exponentText_toString (exponent : Int) :
    Lexeme.ExponentText (toString exponent).toList := by
  cases exponent with
  | ofNat n =>
    rw [Int.ofNat_eq_natCast, toList_toString_ofNat]
    exact .plain Nat.toDigits_ne_nil isDigit_of_mem_toDigits
  | negSucc n =>
    rw [toList_toString_negSucc]
    exact .minus Nat.toDigits_ne_nil isDigit_of_mem_toDigits

/-- A text that is taken as one number with a point or an exponent, whatever does not go on with
a word behind it. -/
def FloatText (cs : List Char) : Prop :=
  ∃ c more, cs = c :: more ∧ c.isDigit = true ∧
    ∀ rest, Lexeme.EndsWord rest → Lexeme.Heads .float c more rest

/-- Digits, a point and digits. -/
theorem floatText_point {whole fraction : List Char} (hne : whole ≠ [])
    (hwhole : ∀ d ∈ whole, d.isDigit = true) (hfraction : ∀ d ∈ fraction, d.isDigit = true) :
    FloatText (whole ++ '.' :: fraction) := by
  obtain ⟨c, whole, rfl⟩ := List.exists_cons_of_ne_nil hne
  rw [List.forall_mem_cons] at hwhole
  refine ⟨c, whole ++ '.' :: fraction, rfl, hwhole.1, fun rest hrest => ?_⟩
  have hex : Lexeme.exponentLength ([] ++ rest) = ([] : List Char).length :=
    Lexeme.exponentLength_of_endsWord hrest
  have hheads := Lexeme.heads_point hwhole.1 hwhole.2 hfraction hex hrest.isDigit
  rwa [List.append_nil] at hheads

/-- A point placed among digits stands behind a first digit; without it, the digits are those given
and zeros around them. -/
theorem exists_placePoint {ds : List Char} (hne : ds ≠ []) (point : Int) :
    ∃ whole fraction, ∃ before behind : Nat, placePoint ds point = whole ++ '.' :: fraction ∧
      whole ≠ [] ∧
      whole ++ fraction = List.replicate before '0' ++ ds ++ List.replicate behind '0' ∧
      (fraction.length : Int) = ds.length - point + behind := by
  have hlength := List.length_pos_of_ne_nil hne
  unfold placePoint
  by_cases hpoint : point ≤ 0
  · rw [if_pos hpoint]
    refine ⟨['0'], _, (-point).toNat + 1, 0, rfl, List.cons_ne_nil _ _, ?_, ?_⟩
    · simp [List.replicate_succ]
    · rw [List.length_append, List.length_replicate]
      omega
  · rw [if_neg hpoint]
    dsimp only
    generalize hn : point.toNat = n
    by_cases hinside : ds.length ≤ n
    · rw [if_pos hinside, List.take_of_length_le hinside]
      refine ⟨_, _, 0, n - ds.length + 1, rfl, List.append_ne_nil_of_left_ne_nil hne _, ?_, ?_⟩
      · rw [List.append_assoc, ← List.replicate_succ', List.replicate_zero, List.nil_append]
      · rw [List.length_singleton]
        omega
    · have hzeros : n - ds.length = 0 := by omega
      rw [if_neg hinside, hzeros, List.replicate_zero, List.append_nil]
      refine ⟨_, _, 0, 0, rfl, ?_, ?_, ?_⟩
      · apply List.ne_nil_of_length_pos
        rw [List.length_take]
        omega
      · rw [List.take_append_drop, List.replicate_zero, List.nil_append, List.append_nil]
      · rw [List.length_drop]
        omega

/-- Digits with zeros around them are digits. -/
theorem isDigit_of_zeros_around {ds : List Char} (hds : ∀ d ∈ ds, d.isDigit = true)
    (before behind : Nat) :
    ∀ d ∈ List.replicate before '0' ++ ds ++ List.replicate behind '0', d.isDigit = true := by
  have hzeros : ∀ {n : Nat}, ∀ d ∈ List.replicate n '0', d.isDigit = true := by
    intro n d hd
    rw [List.eq_of_mem_replicate hd]
    rfl
  exact List.forall_mem_append.mpr ⟨List.forall_mem_append.mpr ⟨hzeros, hds⟩, hzeros⟩

/-- Digits with a point put among them are a floating-point text. -/
theorem floatText_placePoint {ds : List Char} (hne : ds ≠ []) (hds : ∀ d ∈ ds, d.isDigit = true)
    (point : Int) : FloatText (placePoint ds point) := by
  obtain ⟨whole, fraction, before, behind, htext, hwhole, hdigits, -⟩ := exists_placePoint hne point
  have hall := isDigit_of_zeros_around hds before behind
  rw [← hdigits, List.forall_mem_append] at hall
  rw [htext]
  exact floatText_point hwhole hall.1 hall.2

/-- So are digits with an exponent. -/
theorem floatText_withExponent {ds : List Char} (hne : ds ≠ [])
    (hds : ∀ d ∈ ds, d.isDigit = true) (exponent : Int) :
    FloatText (withExponent ds exponent) := by
  have hex := exponentText_toString exponent
  obtain ⟨c, ds, rfl⟩ := List.exists_cons_of_ne_nil hne
  rw [List.forall_mem_cons] at hds
  cases ds with
  | nil => exact ⟨c, _, rfl, hds.1, fun rest hrest => Lexeme.heads_mark hds.1 hex hrest⟩
  | cons d ds =>
    refine ⟨c, '.' :: (d :: ds ++ 'e' :: (toString exponent).toList), rfl, hds.1, ?_⟩
    intro rest hrest
    refine Lexeme.heads_point hds.1 (List.forall_mem_nil _) hds.2 ?_ ?_
    · exact Lexeme.exponentLength_mark hex hrest
    · rintro _ ⟨⟩
      rfl

/-- A finite value without a minus sign is written as one number. -/
theorem Binary64.floatText_text (m : Nat) (q : Int) :
    FloatText (Binary64.text (.finite false m q)).toList := by
  rw [Binary64.text]
  simp only [Bool.false_eq_true, if_false, String.toList_ofList]
  by_cases hm : m = 0
  · rw [if_pos hm]
    exact floatText_point (List.cons_ne_nil '0' []) (by simp) (by simp)
  · rw [if_neg hm, Decimal.chars]
    split
    · exact floatText_placePoint Nat.toDigits_ne_nil isDigit_of_mem_toDigits _
    · exact floatText_withExponent Nat.toDigits_ne_nil isDigit_of_mem_toDigits _

end Number

end ClassCheck
