import ClassCheck.Proofs.Lexemes
import ClassCheck.Proofs.Patterns

/-!
# How far texts of the patterns reach

The lengths that the scanner computes are compared with the languages of the sorts one after the
other. What is taken as a word, a number, a string, a sign or trivia is in the language, and no
other text at the front that is in the language is longer. A number backs off to where it was last
complete, so that its exponent counts only with a digit.
-/

namespace ClassCheck

open scoped Computability

/-- The sort of the tokens of a shape; a faulty lexeme is of no sort. A reserved word is a name
too. -/
def Lexeme.Shape.pattern? : Lexeme.Shape → Option Pattern
  | .word => some .identifier
  | .integer => some .integer
  | .float => some .float
  | .string => some .string
  | .sign symbol => some (.sign symbol)
  | .openString | .openComment | .stray => none

namespace Pattern

open Lexeme

/-! ## Words -/

private theorem length_le_runLength {p : Char → Bool} {as cs : List Char}
    (has : ∀ c ∈ as, p c = true) (h : as <+: cs) : as.length ≤ runLength p cs := by
  obtain ⟨rest, rfl⟩ := h
  rw [runLength_append has]
  exact Nat.le_add_right _ _

private theorem forall_mem_take_runLength (p : Char → Bool) (cs : List Char) :
    ∀ c ∈ cs.take (runLength p cs), p c = true := by
  rw [take_runLength]
  exact fun c hc => List.mem_takeWhile_imp hc

/-- A reserved word looks like a name. -/
theorem mem_identifier_of_keyword {word : Keyword} {w : List Char}
    (h : w ∈ language (.keyword word)) : w ∈ language .identifier := by
  obtain ⟨c, more, htext, hc, hmore⟩ := word.isWord_spelling
  exact mem_identifier_iff.mpr ⟨c, more, hmore, hc, h.trans htext⟩

/-- What starts like a word is taken up to where the word ends. -/
theorem tail_of_isWordStart {c : Char} (hc : isWordStart c = true) (cs : List Char) :
    tail c cs = (.word, runLength isWordChar cs) := by
  rw [tail, if_neg (by rintro rfl; cases hc), if_pos hc]

/-- No word at the front is longer than the run of its characters. -/
theorem length_le_of_word {c : Char} {v cs : List Char} (hv : c :: v ∈ language .identifier)
    (hfront : v <+: cs) : isWordStart c = true ∧ v.length ≤ runLength isWordChar cs := by
  obtain ⟨_, _, hmore, hc, ⟨⟩⟩ := mem_identifier_iff.mp hv
  exact ⟨hc, length_le_runLength hmore hfront⟩

/-! ## Numbers -/

/-- No exponent at the front is longer than the length computed for it. -/
theorem length_le_exponentLength {ex : List Char} (h : ex ∈ exponent) (rest : List Char) :
    ex.length ≤ exponentLength (ex ++ rest) := by
  obtain ⟨mark, sign, ds, hds, hmark, hsign, rfl⟩ := mem_exponent_iff.mp h
  obtain ⟨hne, hall⟩ := mem_digits_iff.mp hds
  have hpos := List.length_pos_of_ne_nil hne
  have hlength : signLength (sign ++ (ds ++ rest)) = sign.length := by
    rcases hsign with rfl | rfl | rfl
    · obtain ⟨d, ds, rfl⟩ := List.exists_cons_of_ne_nil hne
      refine if_neg ?_
      rintro (hd | hd)
      · cases hd
        exact absurd (hall '+' List.mem_cons_self) (by decide)
      · cases hd
        exact absurd (hall '-' List.mem_cons_self) (by decide)
    · rfl
    · rfl
  rw [List.cons_append, List.append_assoc, exponentLength_cons, hlength, List.drop_left,
    runLength_append hall, if_pos ⟨hmark, by omega⟩, List.length_cons, List.length_append]
  omega

private theorem take_signLength (cs : List Char) :
    cs.take (signLength cs) = [] ∨ cs.take (signLength cs) = ['+'] ∨
      cs.take (signLength cs) = ['-'] := by
  unfold signLength
  split
  · rename_i hhead
    rcases hhead with hhead | hhead
    · rw [List.eq_cons_of_mem_head? hhead]
      exact .inr (.inl rfl)
    · rw [List.eq_cons_of_mem_head? hhead]
      exact .inr (.inr rfl)
  · exact .inl rfl

private theorem take_runLength_mem_digits {cs : List Char} (h : runLength Char.isDigit cs ≠ 0) :
    cs.take (runLength Char.isDigit cs) ∈ digits := by
  refine mem_digits_iff.mpr ⟨fun hnil => h ?_, forall_mem_take_runLength _ cs⟩
  rw [take_runLength] at hnil
  rw [runLength, hnil, List.length_nil]

/-- What is taken for an exponent is one. -/
theorem take_exponentLength_mem {cs : List Char} (h : exponentLength cs ≠ 0) :
    cs.take (exponentLength cs) ∈ exponent := by
  cases cs with
  | nil => exact absurd rfl h
  | cons mark cs =>
    rw [exponentLength_cons] at h ⊢
    split at h
    · rename_i hmark
      rw [if_pos hmark, Nat.add_assoc, Nat.add_comm 1, List.take_succ_cons, List.take_add]
      exact mem_exponent_iff.mpr ⟨mark, _, _, take_runLength_mem_digits hmark.2, hmark.1,
        take_signLength cs, rfl⟩
    · exact absurd rfl h

/-- Digits and an exponent, or none, reach no further than the run of digits in front and the
exponent behind it. -/
theorem length_digits_exponent_le {ds ex : List Char} (hds : ∀ c ∈ ds, c.isDigit = true)
    (hex : ex ∈ maybe exponent) (rest : List Char) :
    let text := ds ++ (ex ++ rest)
    ds.length + ex.length ≤ runLength Char.isDigit text +
      exponentLength (text.drop (runLength Char.isDigit text)) := by
  dsimp only
  rcases hex with rfl | hex
  · rw [runLength_append hds, List.length_nil]
    omega
  · have hrun : runLength Char.isDigit (ds ++ (ex ++ rest)) = ds.length := by
      obtain ⟨mark, sign, ds', -, hmark, -, rfl⟩ := mem_exponent_iff.mp hex
      refine runLength_exact hds fun c hc => ?_
      cases hc
      rcases hmark with rfl | rfl <;> rfl
    have hexponent := length_le_exponentLength hex rest
    rw [hrun, List.drop_left]
    omega

/-- A number goes at least as far as it would without a point. -/
theorem plain_le_numberTail (cs : List Char) :
    runLength Char.isDigit cs + exponentLength (cs.drop (runLength Char.isDigit cs)) ≤
      (numberTail cs).2 := by
  by_cases hpoint : (cs.drop (runLength Char.isDigit cs)).head? = some '.'
  · obtain ⟨rest, hrest⟩ : ∃ rest, cs.drop (runLength Char.isDigit cs) = '.' :: rest :=
      ⟨_, List.eq_cons_of_mem_head? hpoint⟩
    have hnone : exponentLength ('.' :: rest) = 0 := rfl
    rw [numberTail_point hrest, hrest, hnone]
    dsimp only
    omega
  · rw [numberTail_plain hpoint]

/-- No integer at the front is longer than what is taken. -/
theorem length_le_of_integer {c : Char} {v cs : List Char} (hv : c :: v ∈ language .integer)
    (hfront : v <+: cs) : c.isDigit = true ∧ v.length ≤ (numberTail cs).2 := by
  obtain ⟨-, hall⟩ := mem_digits_iff.mp hv
  rw [List.forall_mem_cons] at hall
  have hrun := length_le_runLength hall.2 hfront
  have hplain := plain_le_numberTail cs
  exact ⟨hall.1, by omega⟩

/-- The digits that a number starts with are its first character and more. -/
theorem exists_digits_of_cons {c : Char} {v ds behind : List Char} (hds : ds ∈ digits)
    (h : c :: v = ds ++ behind) :
    ∃ more, c.isDigit = true ∧ (∀ d ∈ more, d.isDigit = true) ∧ v = more ++ behind := by
  obtain ⟨hne, hall⟩ := mem_digits_iff.mp hds
  obtain ⟨d, more, rfl⟩ := List.exists_cons_of_ne_nil hne
  rw [List.forall_mem_cons] at hall
  rw [List.cons_append, List.cons.injEq] at h
  exact ⟨more, h.1 ▸ hall.1, hall.2, h.2⟩

/-- No floating-point number at the front is longer than what is taken. -/
theorem length_le_of_float {c : Char} {v cs : List Char} (hv : c :: v ∈ language .float)
    (hfront : v <+: cs) : c.isDigit = true ∧ v.length ≤ (numberTail cs).2 := by
  obtain ⟨rest, rfl⟩ := hfront
  obtain ⟨ds, fs, ex, hds, hfs, hex, heq⟩ | ⟨ds, ex, hds, hex, heq⟩ := mem_float_iff.mp hv
  · obtain ⟨more, hc, hmore, rfl⟩ := exists_digits_of_cons hds heq
    refine ⟨hc, ?_⟩
    have hbehind := length_digits_exponent_le hfs hex rest
    have htext : more ++ '.' :: (fs ++ ex) ++ rest = more ++ '.' :: (fs ++ (ex ++ rest)) := by
      simp
    -- The run of digits stops at the point, and the fraction starts behind it.
    have hrun : runLength Char.isDigit (more ++ '.' :: (fs ++ (ex ++ rest))) = more.length :=
      runLength_exact hmore (by rintro _ ⟨⟩; rfl)
    have hdrop : (more ++ '.' :: (fs ++ (ex ++ rest))).drop
        (runLength Char.isDigit (more ++ '.' :: (fs ++ (ex ++ rest)))) =
          '.' :: (fs ++ (ex ++ rest)) := by
      rw [hrun, List.drop_left]
    rw [htext, numberTail_point hdrop, hrun, List.length_append, List.length_cons,
      List.length_append]
    dsimp only at hbehind ⊢
    omega
  · obtain ⟨more, hc, hmore, rfl⟩ := exists_digits_of_cons hds heq
    refine ⟨hc, ?_⟩
    have hwhole := length_digits_exponent_le hmore (.inr hex) rest
    have hplain := plain_le_numberTail (more ++ (ex ++ rest))
    rw [List.append_assoc, List.length_append]
    exact hwhole.trans hplain

/-- What is taken for a number is one of its sort. -/
theorem numberTail_mem {c : Char} (hc : c.isDigit = true) (cs : List Char) :
    ∃ P, (numberTail cs).1.pattern? = some P ∧ c :: cs.take (numberTail cs).2 ∈ P.language := by
  have hdigits : c :: cs.take (runLength Char.isDigit cs) ∈ digits := mem_digits_iff.mpr
    ⟨List.cons_ne_nil _ _, List.forall_mem_cons.mpr ⟨hc, forall_mem_take_runLength _ cs⟩⟩
  by_cases hpoint : (cs.drop (runLength Char.isDigit cs)).head? = some '.'
  · obtain ⟨rest, hrest⟩ : ∃ rest, cs.drop (runLength Char.isDigit cs) = '.' :: rest :=
      ⟨_, List.eq_cons_of_mem_head? hpoint⟩
    rw [numberTail_point hrest]
    refine ⟨.float, rfl, mem_float_iff.mpr (.inl ⟨_, rest.take (runLength Char.isDigit rest),
      (rest.drop (runLength Char.isDigit rest)).take
        (exponentLength (rest.drop (runLength Char.isDigit rest))), hdigits,
      forall_mem_take_runLength _ rest, ?_, ?_⟩)⟩
    · by_cases hnone : exponentLength (rest.drop (runLength Char.isDigit rest)) = 0
      · rw [hnone]
        exact .inl rfl
      · exact .inr (take_exponentLength_mem hnone)
    · dsimp only
      rw [Nat.add_assoc, Nat.add_assoc, Nat.add_comm 1, List.take_add, hrest, List.take_succ_cons,
        List.take_add, List.cons_append]
  · rw [numberTail_plain hpoint]
    dsimp only
    split
    · rename_i hnone
      rw [hnone]
      exact ⟨.integer, rfl, hdigits⟩
    · rename_i hsome
      refine ⟨.float, rfl, mem_float_iff.mpr
        (.inr ⟨_, _, hdigits, take_exponentLength_mem hsome, ?_⟩)⟩
      rw [List.take_add, List.cons_append]

/-! ## Strings -/

/-- What stands between the quotes of a string is one item behind the other. -/
theorem mem_kstar_stringItem_iff {w : List Char} :
    w ∈ stringItem∗ ↔ ∃ items : List StringItem, w = items.flatMap StringItem.chars := by
  constructor
  · intro h
    induction h using kstar_induction with
    | nil => exact ⟨[], rfl⟩
    | append a ha w _ ih =>
      obtain ⟨items, rfl⟩ := ih
      obtain ⟨c, hquote, hbackslash, hline, rfl⟩ | ⟨c, hline, rfl⟩ := mem_stringItem_iff.mp ha
      · exact ⟨.plain c ⟨hquote, hbackslash, hline⟩ :: items, rfl⟩
      · exact ⟨.escape c hline :: items, rfl⟩
  · rintro ⟨items, rfl⟩
    induction items with
    | nil => exact Language.nil_mem_kstar _
    | cons item items ih =>
      refine append_mem_kstar (mem_stringItem_iff.mpr ?_) ih
      cases item with
      | plain c special => exact .inl ⟨c, special.1, special.2.1, special.2.2, rfl⟩
      | escape c line => exact .inr ⟨c, line, rfl⟩

private theorem itemsLength_append {items : List Char} (h : items ∈ stringItem∗) (cs : List Char) :
    itemsLength (items ++ cs) = items.length + itemsLength cs := by
  obtain ⟨items, rfl⟩ := mem_kstar_stringItem_iff.mp h
  exact StringItem.itemsLength_flatMap items cs

/-- No items at the front are longer than what is taken for them. -/
theorem length_le_itemsLength {items cs : List Char} (h : items ∈ stringItem∗)
    (hfront : items <+: cs) : items.length ≤ itemsLength cs := by
  obtain ⟨rest, rfl⟩ := hfront
  rw [itemsLength_append h]
  exact Nat.le_add_right _ _

/-- What is taken for items of a string are such items. -/
theorem take_itemsLength_mem (cs : List Char) : cs.take (itemsLength cs) ∈ stringItem∗ := by
  fun_induction itemsLength cs with
  | case1 cs => exact Language.nil_mem_kstar _
  | case2 c cs hc ih =>
    have hitem : ['\\', c] ∈ stringItem := mem_stringItem_iff.mpr (.inr ⟨c, hc, rfl⟩)
    exact append_mem_kstar hitem ih
  | case3 c cs _ hc => exact Language.nil_mem_kstar _
  | case4 c cs _ hc ih =>
    rw [not_or, not_or] at hc
    have hitem : [c] ∈ stringItem := mem_stringItem_iff.mpr (.inl ⟨c, hc.1, hc.2.1, hc.2.2, rfl⟩)
    exact append_mem_kstar hitem ih
  | case5 => exact Language.nil_mem_kstar _

/-- A closed string is taken as a whole. -/
theorem stringTail_of_string {c : Char} {v cs : List Char} (hv : c :: v ∈ language .string)
    (hfront : v <+: cs) : c = '"' ∧ stringTail cs = (.string, v.length) := by
  obtain ⟨items, hitems, heq⟩ := mem_string_iff.mp hv
  obtain ⟨rfl, rfl⟩ := List.cons.inj heq
  obtain ⟨rest, rfl⟩ := hfront
  have hlength : itemsLength (items ++ '"' :: rest) = items.length := by
    rw [itemsLength_append hitems]
    rfl
  refine ⟨rfl, ?_⟩
  rw [List.append_assoc, List.singleton_append, stringTail]
  rw [hlength, List.drop_left, List.length_append]
  rfl

/-- A string is closed behind its items or not at all. -/
theorem stringTail_cases (cs : List Char) :
    (stringTail cs = (.string, itemsLength cs + 1) ∧
      '"' :: cs.take (itemsLength cs + 1) ∈ language .string) ∨
    stringTail cs = (.openString, itemsLength cs) := by
  unfold stringTail
  dsimp only
  split
  · rename_i rest hrest
    refine .inl ⟨rfl, mem_string_iff.mpr ⟨_, take_itemsLength_mem cs, ?_⟩⟩
    rw [List.take_add, hrest]
    rfl
  · exact .inr rfl

/-! ## Signs -/

/-- A sign is one character or two, and starts nothing but signs and comments. -/
theorem exists_sign (symbol : Symbol) :
    ∃ c more, symbol.spelling.toList = c :: more ∧ isBlank c = false ∧ c ≠ '#' ∧
      (∀ cs, tail c cs = signTail c cs) ∧
      (more = [] ∧ singleSymbol? c = some symbol ∨
        ∃ d, more = [d] ∧ c ≠ '/' ∧ pairSymbol? c d = some symbol) := by
  cases symbol
  all_goals
    refine ⟨_, _, rfl, rfl, by decide, fun _ => rfl, ?_⟩
  case assign | eqEq | notEq | lessEq | greaterEq | andAnd | orOr =>
    exact .inr ⟨_, rfl, by decide, rfl⟩
  all_goals exact .inl ⟨rfl, rfl⟩

/-- What the scanner makes of a sign: the opening of a comment, a pair of characters, a single
character, or nothing that it knows. -/
theorem signTail_cases (c : Char) (cs : List Char) :
    (∃ body, c = '/' ∧ cs = '*' :: body ∧ signTail c cs = (.openComment, cs.length)) ∨
    (∃ d rest symbol, cs = d :: rest ∧ pairSymbol? c d = some symbol ∧
      signTail c cs = (.sign symbol, 1)) ∨
    (∀ d, cs.head? = some d → pairSymbol? c d = none) ∧
      ((∃ symbol, singleSymbol? c = some symbol ∧ signTail c cs = (.sign symbol, 0)) ∨
        singleSymbol? c = none ∧ signTail c cs = (.stray, 0)) := by
  have hsingle : (∃ symbol, singleSymbol? c = some symbol ∧ singleTail c = (.sign symbol, 0)) ∨
      singleSymbol? c = none ∧ singleTail c = (.stray, 0) := by
    unfold singleTail
    cases singleSymbol? c with
    | none => exact .inr ⟨rfl, rfl⟩
    | some symbol => exact .inl ⟨symbol, rfl, rfl⟩
  cases cs with
  | nil => exact .inr (.inr ⟨nofun, hsingle⟩)
  | cons d rest =>
    by_cases hopen : c = '/' ∧ d = '*'
    · obtain ⟨rfl, rfl⟩ := hopen
      exact .inl ⟨rest, rfl, rfl, rfl⟩
    right
    rw [signTail, if_neg hopen]
    cases hpair : pairSymbol? c d with
    | some symbol => exact .inl ⟨d, rest, symbol, rfl, hpair, rfl⟩
    | none =>
      refine .inr ⟨fun e he => ?_, hsingle⟩
      cases he
      exact hpair

/-- What is taken for a sign is one. -/
theorem signTail_mem {c : Char} {cs : List Char} {P : Pattern}
    (h : (signTail c cs).1.pattern? = some P) :
    c :: cs.take (signTail c cs).2 ∈ P.language := by
  obtain ⟨body, -, -, htail⟩ | ⟨d, rest, symbol, rfl, hpair, htail⟩ |
    ⟨-, ⟨symbol, hsingle, htail⟩ | ⟨-, htail⟩⟩ := signTail_cases c cs
  · rw [htail] at h
    cases h
  · rw [htail] at h ⊢
    cases h
    rw [language, mem_fixed_iff, spelling_of_pairSymbol? hpair, String.toList_ofList]
    rfl
  · rw [htail] at h ⊢
    cases h
    rw [language, mem_fixed_iff, spelling_of_singleSymbol? hsingle, String.toList_ofList]
    rfl
  · rw [htail] at h
    cases h

/-- No sign at the front is longer than what is taken, unless a comment opens there. -/
theorem length_le_of_sign {symbol : Symbol} {c : Char} {v cs : List Char}
    (hv : c :: v ∈ language (.sign symbol)) (hfront : v <+: cs)
    (hopen : ¬ (c = '/' ∧ cs.head? = some '*')) :
    (∀ cs, tail c cs = signTail c cs) ∧ (signTail c cs).1.pattern? ≠ none ∧
      v.length ≤ (signTail c cs).2 := by
  obtain ⟨_, _, hspelling, -, -, hsign, hsymbol⟩ := exists_sign symbol
  obtain ⟨rfl, rfl⟩ := List.cons.inj (hv.trans hspelling)
  refine ⟨hsign, ?_⟩
  obtain ⟨body, rfl, rfl, -⟩ | ⟨d, rest, found, rfl, -, htail⟩ |
    ⟨hpair, ⟨found, -, htail⟩ | ⟨hsingle, -⟩⟩ := signTail_cases c cs
  · exact absurd ⟨rfl, rfl⟩ hopen
  · rw [htail]
    refine ⟨Option.some_ne_none _, ?_⟩
    rcases hsymbol with ⟨rfl, -⟩ | ⟨e, rfl, -⟩
    · exact Nat.zero_le 1
    · exact Nat.le_refl 1
  · rw [htail]
    refine ⟨Option.some_ne_none _, ?_⟩
    rcases hsymbol with ⟨rfl, -⟩ | ⟨e, rfl, -, he⟩
    · exact Nat.zero_le 0
    · obtain ⟨rest, rfl⟩ := hfront
      rw [hpair e rfl] at he
      cases he
  · rcases hsymbol with ⟨-, hc⟩ | ⟨e, rfl, -, he⟩
    · rw [hsingle] at hc
      cases hc
    · obtain ⟨rest, rfl⟩ := hfront
      rw [hpair e rfl] at he
      cases he

/-! ## Tokens -/

/-- No text of a sort is empty. -/
theorem ne_nil_of_mem {P : Pattern} {w : List Char} (h : w ∈ P.language) : w ≠ [] := by
  rintro rfl
  cases P with
  | blanks => exact (mem_blanks_iff.mp h).1 rfl
  | lineComment =>
    obtain ⟨_, -, hw⟩ := mem_lineComment_iff.mp h
    cases hw
  | blockComment =>
    obtain ⟨_, -, hw⟩ := mem_blockComment_iff.mp h
    cases hw
  | keyword word =>
    obtain ⟨_, _, -, -, hw⟩ := mem_identifier_iff.mp (mem_identifier_of_keyword h)
    cases hw
  | identifier =>
    obtain ⟨_, _, -, -, hw⟩ := mem_identifier_iff.mp h
    cases hw
  | integer => exact (mem_digits_iff.mp h).1 rfl
  | float =>
    obtain ⟨ds, _, _, hds, -, -, hw⟩ | ⟨ds, _, hds, -, hw⟩ := mem_float_iff.mp h
    · exact (mem_digits_iff.mp hds).1 (List.append_eq_nil_iff.mp hw.symm).1
    · exact (mem_digits_iff.mp hds).1 (List.append_eq_nil_iff.mp hw.symm).1
  | string =>
    obtain ⟨_, -, hw⟩ := mem_string_iff.mp h
    cases hw
  | sign symbol =>
    obtain ⟨_, _, hspelling, -⟩ := exists_sign symbol
    cases h.trans hspelling

/-- By the first character of a text, it starts with a string, a word, a number or a sign. -/
theorem tail_cases (c : Char) (cs : List Char) :
    c = '"' ∧ tail c cs = stringTail cs ∨
    isWordStart c = true ∧ tail c cs = (.word, runLength isWordChar cs) ∨
    c.isDigit = true ∧ tail c cs = numberTail cs ∨
    c ≠ '"' ∧ tail c cs = signTail c cs := by
  unfold tail
  by_cases hquote : c = '"'
  · exact .inl ⟨hquote, if_pos hquote⟩
  rw [if_neg hquote]
  by_cases hword : isWordStart c = true
  · exact .inr (.inl ⟨hword, if_pos hword⟩)
  rw [if_neg hword]
  by_cases hdigit : c.isDigit = true
  · exact .inr (.inr (.inl ⟨hdigit, if_pos hdigit⟩))
  · exact .inr (.inr (.inr ⟨hquote, if_neg hdigit⟩))

/-- What is taken as a token is a text of its sort. -/
theorem tail_mem {c : Char} {cs : List Char} {P : Pattern}
    (h : (tail c cs).1.pattern? = some P) : c :: cs.take (tail c cs).2 ∈ P.language := by
  obtain ⟨rfl, htail⟩ | ⟨hword, htail⟩ | ⟨hdigit, htail⟩ | ⟨-, htail⟩ := tail_cases c cs
  · rw [htail] at h ⊢
    obtain ⟨hstring, hmem⟩ | hstring := stringTail_cases cs
    · rw [hstring] at h ⊢
      cases h
      exact hmem
    · rw [hstring] at h
      cases h
  · rw [htail] at h ⊢
    cases h
    exact mem_identifier_iff.mpr ⟨c, _, forall_mem_take_runLength _ cs, hword, rfl⟩
  · rw [htail] at h ⊢
    obtain ⟨Q, hQ, hmem⟩ := numberTail_mem hdigit cs
    cases hQ.symm.trans h
    exact hmem
  · rw [htail] at h ⊢
    exact signTail_mem h

/-- What is no token is a string or a comment that is not closed, or a single character. -/
theorem tail_fault_cases {c : Char} {cs : List Char} (h : (tail c cs).1.pattern? = none) :
    c = '"' ∧ tail c cs = (.openString, itemsLength cs) ∨
    c = '/' ∧ cs.head? = some '*' ∧ tail c cs = (.openComment, cs.length) ∨
    c ≠ '"' ∧ tail c cs = (.stray, 0) := by
  obtain ⟨hquote, htail⟩ | ⟨-, htail⟩ | ⟨hdigit, htail⟩ | ⟨hquote, htail⟩ := tail_cases c cs
  · obtain ⟨hclosed, -⟩ | hopen := stringTail_cases cs
    · rw [htail, hclosed] at h
      cases h
    · exact .inl ⟨hquote, htail.trans hopen⟩
  · rw [htail] at h
    cases h
  · obtain ⟨P, hP, -⟩ := numberTail_mem hdigit cs
    rw [htail, hP] at h
    cases h
  · obtain ⟨body, hslash, rfl, hcomment⟩ | ⟨_, _, _, -, -, hpair⟩ |
      ⟨-, ⟨_, -, hsingle⟩ | ⟨-, hstray⟩⟩ := signTail_cases c cs
    · exact .inr (.inl ⟨hslash, rfl, htail.trans hcomment⟩)
    · rw [htail, hpair] at h
      cases h
    · rw [htail, hsingle] at h
      cases h
    · exact .inr (.inr ⟨hquote, htail.trans hstray⟩)

/-- A token is taken wherever a text of the sort of some token is in front, and it is no shorter
than that text; only the opening of a comment is stronger. -/
theorem length_le_of_token {Q : Pattern} {c : Char} {v cs : List Char} (hQ : Q.isTrivia = false)
    (hv : c :: v ∈ Q.language) (hfront : v <+: cs)
    (hopen : ¬ (c = '/' ∧ cs.head? = some '*')) :
    (tail c cs).1.pattern? ≠ none ∧ v.length ≤ (tail c cs).2 := by
  have hword : c :: v ∈ language .identifier →
      (tail c cs).1.pattern? ≠ none ∧ v.length ≤ (tail c cs).2 := by
    intro hv
    obtain ⟨hc, hlength⟩ := length_le_of_word hv hfront
    rw [tail_of_isWordStart hc]
    exact ⟨Option.some_ne_none _, hlength⟩
  have hnumber : c.isDigit = true ∧ v.length ≤ (numberTail cs).2 →
      (tail c cs).1.pattern? ≠ none ∧ v.length ≤ (tail c cs).2 := by
    rintro ⟨hc, hlength⟩
    obtain ⟨P, hP, -⟩ := numberTail_mem hc cs
    rw [tail_of_isDigit hc, hP]
    exact ⟨Option.some_ne_none _, hlength⟩
  cases Q with
  | blanks | lineComment | blockComment => cases hQ
  | keyword word => exact hword (mem_identifier_of_keyword hv)
  | identifier => exact hword hv
  | integer => exact hnumber (length_le_of_integer hv hfront)
  | float => exact hnumber (length_le_of_float hv hfront)
  | string =>
    obtain ⟨rfl, hstring⟩ := stringTail_of_string hv hfront
    rw [tail, if_pos rfl, hstring]
    exact ⟨Option.some_ne_none _, Nat.le_refl _⟩
  | sign symbol =>
    obtain ⟨hsign, hlength⟩ := length_le_of_sign hv hfront hopen
    rw [hsign]
    exact hlength

/-! ## Trivia -/

/-- Trivia are taken wherever a text of their sorts is in front, and they are no shorter than that
text. -/
theorem length_le_of_trivia {Q : Pattern} {v cs : List Char} (hQ : Q.isTrivia = true)
    (hv : v ∈ Q.language) (hfront : v <+: cs) : v.length ≤ triviumLength cs := by
  cases Q with
  | keyword | identifier | integer | float | string | sign => cases hQ
  | blanks =>
    obtain ⟨hne, hall⟩ := mem_blanks_iff.mp hv
    have hrun := length_le_runLength hall hfront
    obtain ⟨c, v, rfl⟩ := List.exists_cons_of_ne_nil hne
    obtain ⟨cs, rfl, -⟩ := List.cons_prefix_iff.mp hfront
    rwa [triviumLength_blank (hall c List.mem_cons_self)]
  | lineComment =>
    obtain ⟨body, hbody, rfl⟩ := mem_lineComment_iff.mp hv
    obtain ⟨cs, rfl, hbehind⟩ := List.cons_prefix_iff.mp hfront
    have hrun := length_le_runLength (p := (· ≠ '\n'))
      (fun c hc => by simpa using ne_of_mem_of_not_mem hc hbody) hbehind
    rw [triviumLength_hash, List.length_cons]
    omega
  | blockComment =>
    obtain ⟨body, hbody, rfl⟩ := mem_blockComment_iff.mp hv
    obtain ⟨rest, rfl⟩ := hfront
    rw [List.cons_append, List.cons_append, List.append_assoc, triviumLength_slash_star]
    rw [List.cons_append, List.singleton_append, commentLength?_append hbody]
    simp

/-- What is taken as trivia is a text of one of their sorts. -/
theorem exists_trivium {cs : List Char} (h : triviumLength cs ≠ 0) :
    ∃ (P : Pattern) (piece rest : List Char), cs = piece ++ rest ∧ P.isTrivia = true ∧
      piece ∈ P.language ∧ piece.length = triviumLength cs := by
  cases cs with
  | nil => exact absurd rfl h
  | cons c cs =>
    by_cases hblank : isBlank c = true
    · refine ⟨.blanks, _, _, List.takeWhile_append_dropWhile.symm, rfl, ?_,
        (triviumLength_blank hblank cs).symm⟩
      refine mem_blanks_iff.mpr ⟨?_, fun d hd => List.mem_takeWhile_imp hd⟩
      rw [List.takeWhile_cons, if_pos hblank]
      exact List.cons_ne_nil _ _
    by_cases hhash : c = '#'
    · subst hhash
      refine ⟨.lineComment, '#' :: cs.takeWhile (· ≠ '\n'), cs.dropWhile (· ≠ '\n'), ?_, rfl,
        mem_lineComment_iff.mpr ⟨_, fun hin => ?_, rfl⟩, ?_⟩
      · rw [List.cons_append, List.takeWhile_append_dropWhile]
      · simpa using List.mem_takeWhile_imp hin
      · rw [triviumLength_hash, Nat.add_comm]
        rfl
    by_cases hopen : ∃ comment, c = '/' ∧ cs = '*' :: comment
    · obtain ⟨comment, rfl, rfl⟩ := hopen
      rw [triviumLength_slash_star] at h ⊢
      cases hlength : commentLength? comment with
      | none =>
        rw [hlength] at h
        exact absurd rfl h
      | some n =>
        obtain ⟨body, behind, rfl, hbody⟩ := exists_of_commentLength? hlength
        rw [commentLength?_append hbody] at hlength
        cases hlength
        exact ⟨.blockComment, _, behind, by simp, rfl, mem_blockComment_iff.mpr ⟨body, hbody, rfl⟩,
          by simp⟩
    · refine absurd ?_ h
      rw [triviumLength, if_neg hblank, if_neg hhash]
      exact fun comment hc hcs => hopen ⟨comment, hc, hcs⟩

/-- Where trivia are in front, a token there is no longer: it can only be the slash of a comment. -/
theorem length_le_triviumLength {Q : Pattern} {v cs : List Char} (hQ : Q.isTrivia = false)
    (hv : v ∈ Q.language) (hfront : v <+: cs) (h : triviumLength cs ≠ 0) :
    v.length ≤ triviumLength cs := by
  obtain ⟨c, v, rfl⟩ := List.exists_cons_of_ne_nil (ne_nil_of_mem hv)
  obtain ⟨cs, rfl, hbehind⟩ := List.cons_prefix_iff.mp hfront
  have hword : isWordChar c = true → (c :: v).length ≤ triviumLength (c :: cs) := fun hc =>
    absurd (triviumLength_of_isWordChar hc) h
  cases Q with
  | blanks | lineComment | blockComment => cases hQ
  | keyword word =>
    have hname := mem_identifier_of_keyword hv
    exact hword (isWordChar_of_isWordStart (length_le_of_word hname hbehind).1)
  | identifier => exact hword (isWordChar_of_isWordStart (length_le_of_word hv hbehind).1)
  | integer => exact hword (isWordChar_of_isDigit (length_le_of_integer hv hbehind).1)
  | float => exact hword (isWordChar_of_isDigit (length_le_of_float hv hbehind).1)
  | string =>
    obtain ⟨rfl, -⟩ := stringTail_of_string hv hbehind
    exact absurd rfl h
  | sign symbol =>
    obtain ⟨_, _, hspelling, hblank, hhash, -, hsymbol⟩ := exists_sign symbol
    obtain ⟨rfl, rfl⟩ := List.cons.inj (hv.trans hspelling)
    by_cases hslash : c = '/'
    · obtain ⟨rfl, -⟩ | ⟨d, -, hd, -⟩ := hsymbol
      · exact Nat.one_le_iff_ne_zero.mpr h
      · exact absurd hslash hd
    · exact absurd (triviumLength_eq_zero hblank hhash hslash) h

end Pattern

end ClassCheck
