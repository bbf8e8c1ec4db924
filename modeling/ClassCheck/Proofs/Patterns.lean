import ClassCheck.Proofs.Lossless
import Mathlib.Computability.Language

/-!
# The patterns of tokens and trivia

The texts of each sort of token, and of the blanks and comments between tokens, are a regular
language over the characters. Here these languages are written down one by one from classes of
characters and fixed texts. What it means to be in one of them is then said of the characters of a
text, so that the lengths that a scanner computes can be compared with it.
-/

namespace ClassCheck

open scoped Computability

/-! ## Regular languages -/

namespace Pattern

/-- Texts of one character that meets a condition. -/
def one (p : Char → Bool) : Language Char := {w | ∃ c, p c = true ∧ w = [c]}

/-- A fixed text. -/
def fixed (text : String) : Language Char := {text.toList}

/-- Texts of a language, one behind the other, and at least one. -/
def oneOrMore (l : Language Char) : Language Char := l * l∗

/-- A text of a language or nothing. -/
def maybe (l : Language Char) : Language Char := 1 + l

/-- Characters from one to another. -/
def between (lo hi c : Char) : Bool := lo ≤ c && c ≤ hi

/-- Decimal digits. -/
def digits : Language Char := oneOrMore (one (between '0' '9'))

/-- The exponent of a number: a mark, a sign or none, and digits. -/
def exponent : Language Char :=
  one (fun c => c = 'e' || c = 'E') * maybe (one fun c => c = '+' || c = '-') * digits

/-- What stands between the quotes of a string: a character that is not special, or a backslash
with a character behind it. -/
def stringItem : Language Char :=
  one (fun c => c ≠ '"' && c ≠ '\\' && c ≠ '\n') + fixed "\\" * one (· ≠ '\n')

/-- The inside of a block comment up to a run of stars. -/
def starred : Language Char := (one (· ≠ '*'))∗ * oneOrMore (one (· = '*'))

end Pattern

/-- The sorts of texts that a scanner tells apart. -/
inductive Pattern where
  /-- Blanks. -/
  | blanks
  /-- A comment up to the end of its line. -/
  | lineComment
  /-- A comment up to its closing mark. -/
  | blockComment
  /-- A reserved word. -/
  | keyword (word : Keyword)
  /-- A name. -/
  | identifier
  /-- An integer literal. -/
  | integer
  /-- A floating-point literal. -/
  | float
  /-- A string literal. -/
  | string
  /-- A sign. -/
  | sign (symbol : Symbol)
  deriving DecidableEq, Repr

namespace Pattern

/-- The texts of a sort. -/
def language : Pattern → Language Char
  | .blanks => oneOrMore (one fun c => [' ', '\t', '\n', '\r', '\x0c'].contains c)
  | .lineComment => fixed "#" * (one (· ≠ '\n'))∗
  | .blockComment =>
    fixed "/*" * starred * (one (fun c => c ≠ '/' && c ≠ '*') * starred)∗ * fixed "/"
  | .keyword word => fixed word.spelling
  | .identifier =>
    one (fun c => between 'a' 'z' c || between 'A' 'Z' c || c = '_') *
      (one fun c => between 'a' 'z' c || between 'A' 'Z' c || between '0' '9' c || c = '_')∗
  | .integer => digits
  | .float =>
    digits * fixed "." * (one (between '0' '9'))∗ * maybe exponent + digits * exponent
  | .string => fixed "\"" * stringItem∗ * fixed "\""
  | .sign symbol => fixed symbol.spelling

/-- Whether texts of the sort only separate tokens. -/
def isTrivia : Pattern → Bool
  | .blanks | .lineComment | .blockComment => true
  | _ => false

end Pattern

/-- The sort of text that a token is written as; the end of the text is not written at all. -/
def TokenKind.pattern? : TokenKind → Option Pattern
  | .keyword word => some (.keyword word)
  | .symbol sign => some (.sign sign)
  | .identifier _ => some .identifier
  | .integer _ => some .integer
  | .float _ => some .float
  | .string _ => some .string
  | .eof => none

/-! ## Texts of the languages -/

namespace Pattern

@[simp] private theorem mem_one_iff {p : Char → Bool} {w : List Char} :
    w ∈ one p ↔ ∃ c, p c = true ∧ w = [c] := Iff.rfl

/-- The texts of a fixed text are that text alone. -/
@[simp] theorem mem_fixed_iff {text : String} {w : List Char} :
    w ∈ fixed text ↔ w = text.toList := Iff.rfl

@[simp] private theorem mem_maybe_iff {l : Language Char} {w : List Char} :
    w ∈ maybe l ↔ w = [] ∨ w ∈ l := Iff.rfl

/-- A fixed text in front of a language. -/
theorem mem_fixed_mul_iff {text : String} {l : Language Char} {w : List Char} :
    w ∈ fixed text * l ↔ ∃ v ∈ l, w = text.toList ++ v := by
  rw [Language.mem_mul]
  constructor
  · rintro ⟨_, rfl, v, hv, rfl⟩
    exact ⟨v, hv, rfl⟩
  · rintro ⟨v, hv, rfl⟩
    exact ⟨_, rfl, v, hv, rfl⟩

/-- A character in front of a language. -/
theorem mem_one_mul_iff {p : Char → Bool} {l : Language Char} {w : List Char} :
    w ∈ one p * l ↔ ∃ c, ∃ v ∈ l, p c = true ∧ w = c :: v := by
  rw [Language.mem_mul]
  constructor
  · rintro ⟨_, ⟨c, hc, rfl⟩, v, hv, rfl⟩
    exact ⟨c, v, hv, hc, rfl⟩
  · rintro ⟨c, v, hv, hc, rfl⟩
    exact ⟨[c], ⟨c, hc, rfl⟩, v, hv, rfl⟩

/-- A text of a language may be put before more of them. -/
theorem append_mem_kstar {l : Language Char} {a w : List Char} (ha : a ∈ l) (hw : w ∈ l∗) :
    a ++ w ∈ l∗ := by
  rw [← Language.one_add_self_mul_kstar_eq_kstar]
  exact .inr (Language.append_mem_mul ha hw)

/-- What holds of nothing, and with one more text in front, holds of all repetitions. -/
@[elab_as_elim]
theorem kstar_induction {l : Language Char} {motive : (w : List Char) → w ∈ l∗ → Prop}
    (nil : motive [] (Language.nil_mem_kstar l))
    (append : ∀ a (ha : a ∈ l) w (hw : w ∈ l∗), motive w hw → motive (a ++ w)
      (append_mem_kstar ha hw)) {w : List Char} (h : w ∈ l∗) : motive w h := by
  obtain ⟨parts, rfl, hparts⟩ := Language.mem_kstar.mp h
  induction parts with
  | nil => exact nil
  | cons a parts ih =>
    rw [List.forall_mem_cons] at hparts
    have hrest : parts.flatten ∈ l∗ := Language.join_mem_kstar hparts.2
    exact append a hparts.1 _ hrest (ih hparts.2 hrest)

/-- Repeated characters of a class. -/
theorem mem_kstar_one_iff {p : Char → Bool} {w : List Char} :
    w ∈ (one p)∗ ↔ ∀ c ∈ w, p c = true := by
  constructor
  · intro h
    induction h using kstar_induction with
    | nil => exact List.forall_mem_nil _
    | append a ha w hw ih =>
      obtain ⟨c, hc, rfl⟩ := ha
      exact List.forall_mem_cons.mpr ⟨hc, ih⟩
  · intro h
    induction w with
    | nil => exact Language.nil_mem_kstar _
    | cons c w ih =>
      rw [List.forall_mem_cons] at h
      have hone : [c] ∈ one p := ⟨c, h.1, rfl⟩
      exact append_mem_kstar hone (ih h.2)

/-- Runs of characters are not empty, and all characters meet the condition. -/
theorem mem_oneOrMore_one_iff {p : Char → Bool} {w : List Char} :
    w ∈ oneOrMore (one p) ↔ w ≠ [] ∧ ∀ c ∈ w, p c = true := by
  rw [oneOrMore, mem_one_mul_iff]
  constructor
  · rintro ⟨c, v, hv, hc, rfl⟩
    exact ⟨List.cons_ne_nil _ _, List.forall_mem_cons.mpr ⟨hc, mem_kstar_one_iff.mp hv⟩⟩
  · rintro ⟨hne, hall⟩
    obtain ⟨c, v, rfl⟩ := List.exists_cons_of_ne_nil hne
    rw [List.forall_mem_cons] at hall
    exact ⟨c, v, mem_kstar_one_iff.mpr hall.2, hall.1, rfl⟩

/-! ## Classes of characters -/

open Lexeme

private theorem between_digit : between '0' '9' = Char.isDigit := rfl

private theorem isBlank_eq (c : Char) :
    [' ', '\t', '\n', '\r', '\x0c'].contains c = isBlank c := by
  simp [isBlank, Bool.or_assoc]

private theorem between_letter (c : Char) :
    (between 'a' 'z' c || between 'A' 'Z' c) = c.isAlpha := by
  unfold Char.isAlpha Char.isUpper
  rw [Bool.decide_and, Bool.or_comm]
  rfl

private theorem isWordStart_eq (c : Char) :
    (between 'a' 'z' c || between 'A' 'Z' c || decide (c = '_')) = isWordStart c := by
  rw [between_letter, isWordStart]

private theorem isWordChar_eq (c : Char) :
    (between 'a' 'z' c || between 'A' 'Z' c || between '0' '9' c || decide (c = '_')) =
      isWordChar c := by
  unfold isWordChar Char.isAlphanum
  rw [between_letter, between_digit]

/-! ## Trivia -/

/-- Blanks are texts of blank characters. -/
theorem mem_blanks_iff {w : List Char} :
    w ∈ language .blanks ↔ w ≠ [] ∧ ∀ c ∈ w, isBlank c = true := by
  simp only [language, mem_oneOrMore_one_iff, isBlank_eq]

/-- A comment of a line starts with a hash and has no line feed. -/
theorem mem_lineComment_iff {w : List Char} :
    w ∈ language .lineComment ↔ ∃ body, '\n' ∉ body ∧ w = '#' :: body := by
  rw [language, mem_fixed_mul_iff]
  constructor
  · rintro ⟨body, hbody, rfl⟩
    refine ⟨body, fun hin => ?_, rfl⟩
    simpa using mem_kstar_one_iff.mp hbody _ hin
  · rintro ⟨body, hbody, rfl⟩
    refine ⟨body, mem_kstar_one_iff.mpr fun c hc => ?_, rfl⟩
    simpa using ne_of_mem_of_not_mem hc hbody

/-- A run of stars and what stands before its first star. -/
theorem mem_starred_iff {w : List Char} :
    w ∈ starred ↔ ∃ front stars, '*' ∉ front ∧ stars ≠ [] ∧ (∀ c ∈ stars, c = '*') ∧
      w = front ++ stars := by
  rw [starred, Language.mem_mul]
  constructor
  · rintro ⟨front, hfront, stars, hstars, rfl⟩
    rw [mem_oneOrMore_one_iff] at hstars
    refine ⟨front, stars, fun hin => ?_, hstars.1, fun c hc => ?_, rfl⟩
    · simpa using mem_kstar_one_iff.mp hfront _ hin
    · simpa using hstars.2 c hc
  · rintro ⟨front, stars, hfront, hne, hstars, rfl⟩
    refine ⟨front, mem_kstar_one_iff.mpr fun c hc => ?_, stars, ?_, rfl⟩
    · simpa using ne_of_mem_of_not_mem hc hfront
    · exact mem_oneOrMore_one_iff.mpr ⟨hne, fun c hc => by simpa using hstars c hc⟩

/-- A run of stars lets no closing mark in that was not there behind its last star. -/
theorem not_closed_starred {w v : List Char} (hw : w ∈ starred)
    (hv : ¬ ['*', '/'] <:+: '*' :: v) : ¬ ['*', '/'] <:+: w ++ v := by
  obtain ⟨front, stars, hfront, hne, hstars, rfl⟩ := mem_starred_iff.mp hw
  clear hw
  induction front with
  | cons c front ih =>
    rw [List.mem_cons, not_or] at hfront
    intro hin
    rcases List.infix_cons_iff.mp hin with hfirst | hin
    · exact hfront.1 (List.cons_prefix_cons.mp hfirst).1
    · exact ih hfront.2 hin
  | nil =>
    rw [List.nil_append]
    induction stars with
    | nil => exact absurd rfl hne
    | cons c stars ih =>
      rw [List.forall_mem_cons] at hstars
      obtain ⟨rfl, hstars⟩ := hstars
      cases stars with
      | nil => exact hv
      | cons d stars =>
        intro hin
        rcases List.infix_cons_iff.mp hin with hfirst | hin
        · have hslash := (List.cons_prefix_cons.mp (List.cons_prefix_cons.mp hfirst).2).1
          rw [hstars d List.mem_cons_self] at hslash
          cases hslash
        · exact ih (List.cons_ne_nil _ _) hstars hin

private theorem getLast?_of_mem_starred {w : List Char} (h : w ∈ starred) :
    w.getLast? = some '*' := by
  obtain ⟨front, stars, -, hne, hstars, rfl⟩ := mem_starred_iff.mp h
  rw [List.getLast?_append_of_ne_nil _ hne, List.getLast?_eq_some_getLast hne,
    hstars _ (List.getLast_mem hne)]

/-- The inside of a block comment: runs of stars, and no slash behind any of them. -/
def inside : Language Char := starred * (one (fun c => c ≠ '/' && c ≠ '*') * starred)∗

/-- What is inside a block comment is not closed and ends with a star. -/
theorem not_closed_of_mem_inside {w : List Char} (h : w ∈ inside) :
    ¬ ['*', '/'] <:+: w ∧ w.getLast? = some '*' := by
  obtain ⟨v, hv, u, hu, rfl⟩ := Language.mem_mul.mp h
  -- What comes behind the first run of stars closes nothing, even with a star before it.
  have hrest : ¬ ['*', '/'] <:+: '*' :: u ∧ (u = [] ∨ u.getLast? = some '*') := by
    clear h
    induction hu using kstar_induction with
    | nil => exact ⟨by decide, .inl rfl⟩
    | append a ha u hu ih =>
      obtain ⟨c, s, hs, hc, rfl⟩ := mem_one_mul_iff.mp ha
      simp only [Bool.and_eq_true, decide_eq_true_eq] at hc
      refine ⟨fun hin => ?_, .inr ?_⟩
      · rcases List.infix_cons_iff.mp hin with hfirst | hin
        · exact hc.1 (List.cons_prefix_cons.mp (List.cons_prefix_cons.mp hfirst).2).1.symm
        rcases List.infix_cons_iff.mp hin with hfirst | hin
        · exact hc.2 (List.cons_prefix_cons.mp hfirst).1.symm
        · exact not_closed_starred hs ih.1 hin
      · rcases ih.2 with rfl | hlast
        · simp [List.getLast?_cons, getLast?_of_mem_starred hs]
        · rw [List.getLast?_append, hlast]
          rfl
  refine ⟨not_closed_starred hv hrest.1, ?_⟩
  rcases hrest.2 with rfl | hlast
  · rw [List.append_nil]
    exact getLast?_of_mem_starred hv
  · rw [List.getLast?_append, hlast]
    rfl

/-- A text with a star goes up to its first star, then through a run of stars, and then on. -/
theorem exists_run_of_stars {w : List Char} (h : '*' ∈ w) :
    ∃ front stars more, w = front ++ stars ++ more ∧ '*' ∉ front ∧ stars ≠ [] ∧
      (∀ c ∈ stars, c = '*') ∧ more.head? ≠ some '*' := by
  have hfront := List.takeWhile_append_dropWhile (p := (· ≠ '*')) (l := w)
  have hnone : '*' ∉ w.takeWhile (· ≠ '*') := fun hin => by
    simpa using List.mem_takeWhile_imp hin
  cases hrest : w.dropWhile (· ≠ '*') with
  | nil =>
    rw [hrest, List.append_nil] at hfront
    exact absurd h (hfront ▸ hnone)
  | cons c rest =>
    have hc : c = '*' := by
      have hhead := List.head?_dropWhile_not (· ≠ '*') w
      rw [hrest] at hhead
      simpa using hhead
    subst hc
    have hstars := List.takeWhile_append_dropWhile (p := (· = '*')) (l := rest)
    refine ⟨w.takeWhile (· ≠ '*'), '*' :: rest.takeWhile (· = '*'), rest.dropWhile (· = '*'), ?_,
      hnone, List.cons_ne_nil _ _, fun c hc => ?_, fun hhead => ?_⟩
    · rw [List.append_assoc, List.cons_append, hstars, ← hrest, hfront]
    · rcases List.mem_cons.mp hc with hc | hc
      · exact hc
      · simpa using List.mem_takeWhile_imp hc
    · have hmore := List.head?_dropWhile_not (· = '*') rest
      rw [hhead] at hmore
      simp at hmore

/-- A text that is not closed and ends with a star is inside a block comment. -/
theorem mem_inside_of_not_closed {w : List Char} (hopen : ¬ ['*', '/'] <:+: w)
    (hlast : w.getLast? = some '*') : w ∈ inside := by
  induction hn : w.length using Nat.strong_induction_on generalizing w with
  | _ n ih =>
  obtain ⟨front, stars, more, rfl, hfront, hne, hstars, hmore⟩ :=
    exists_run_of_stars (List.mem_of_getLast? hlast)
  have hrun : front ++ stars ∈ starred :=
    mem_starred_iff.mpr ⟨front, stars, hfront, hne, hstars, rfl⟩
  cases more with
  | nil => exact Language.append_mem_mul hrun (Language.nil_mem_kstar _)
  | cons c more =>
    have hstar : c ≠ '*' := fun hc => hmore (congrArg some hc)
    have hslash : c ≠ '/' := by
      rintro rfl
      obtain ⟨stars, d, rfl⟩ := (List.eq_nil_or_concat' stars).resolve_left hne
      obtain rfl := hstars d (by simp)
      exact hopen ⟨front ++ stars, more, by simp⟩
    have hmoreLast : more.getLast? = some '*' := by
      cases more with
      | nil =>
        rw [List.getLast?_concat] at hlast
        exact absurd (Option.some.inj hlast) hstar
      | cons d more => simpa using hlast
    have hmoreOpen : ¬ ['*', '/'] <:+: more := fun hin =>
      hopen (hin.trans ⟨front ++ stars ++ [c], [], by simp⟩)
    have hless : more.length < n := by
      rw [← hn]
      simp only [List.length_append, List.length_cons]
      omega
    obtain ⟨s, hs, u, hu, rfl⟩ := Language.mem_mul.mp (ih _ hless hmoreOpen hmoreLast rfl)
    have hpart : c :: s ∈ one (fun c => c ≠ '/' && c ≠ '*') * starred :=
      mem_one_mul_iff.mpr ⟨c, s, hs, by simp [hslash, hstar], rfl⟩
    exact Language.append_mem_mul hrun (append_mem_kstar hpart hu)

/-- A block comment goes up to its first closing mark. -/
theorem mem_blockComment_iff {w : List Char} :
    w ∈ language .blockComment ↔
      ∃ body, ¬ ['*', '/'] <:+: body ++ ['*'] ∧ w = '/' :: '*' :: (body ++ ['*', '/']) := by
  have hlanguage : language .blockComment = fixed "/*" * (inside * fixed "/") := by
    rw [language, inside, ← mul_assoc, ← mul_assoc]
  rw [hlanguage, mem_fixed_mul_iff]
  constructor
  · rintro ⟨_, hw, rfl⟩
    obtain ⟨v, hv, _, rfl, rfl⟩ := Language.mem_mul.mp hw
    obtain ⟨hopen, hlast⟩ := not_closed_of_mem_inside hv
    obtain ⟨body, rfl⟩ := List.getLast?_eq_some_iff.mp hlast
    exact ⟨body, hopen, by simp⟩
  · rintro ⟨body, hopen, rfl⟩
    refine ⟨body ++ ['*', '/'], ?_, rfl⟩
    have hinside : body ++ ['*'] ∈ inside :=
      mem_inside_of_not_closed hopen (List.getLast?_concat ..)
    have hclosed := Language.append_mem_mul hinside (show ['/'] ∈ fixed "/" from rfl)
    rwa [List.append_assoc] at hclosed

/-! ## Words, numbers and strings -/

/-- An identifier starts like a word and goes on like one. -/
theorem mem_identifier_iff {w : List Char} :
    w ∈ language .identifier ↔
      ∃ c more, (∀ d ∈ more, isWordChar d = true) ∧ isWordStart c = true ∧ w = c :: more := by
  simp only [language, mem_one_mul_iff, mem_kstar_one_iff, isWordStart_eq, isWordChar_eq]

/-- Digits are texts of digits, but not empty. -/
theorem mem_digits_iff {w : List Char} :
    w ∈ digits ↔ w ≠ [] ∧ ∀ c ∈ w, c.isDigit = true := by
  rw [digits, mem_oneOrMore_one_iff, between_digit]

/-- An exponent is a mark, a sign or none, and digits. -/
theorem mem_exponent_iff {w : List Char} :
    w ∈ exponent ↔ ∃ mark sign, ∃ ds ∈ digits, (mark = 'e' ∨ mark = 'E') ∧
      (sign = [] ∨ sign = ['+'] ∨ sign = ['-']) ∧ w = mark :: (sign ++ ds) := by
  have hsign : ∀ v, v ∈ maybe (one fun c => c = '+' || c = '-') ↔
      v = [] ∨ v = ['+'] ∨ v = ['-'] := by
    intro v
    simp only [mem_maybe_iff, mem_one_iff, Bool.or_eq_true, decide_eq_true_eq]
    constructor
    · rintro (rfl | ⟨c, rfl | rfl, rfl⟩) <;> simp
    · rintro (rfl | rfl | rfl) <;> simp
  rw [exponent, mul_assoc, mem_one_mul_iff]
  constructor
  · rintro ⟨mark, _, hv, hmark, rfl⟩
    obtain ⟨sign, hs, ds, hds, rfl⟩ := Language.mem_mul.mp hv
    exact ⟨mark, sign, ds, hds, by simpa using hmark, (hsign sign).mp hs, rfl⟩
  · rintro ⟨mark, sign, ds, hds, hmark, hs, rfl⟩
    exact ⟨mark, sign ++ ds, Language.append_mem_mul ((hsign sign).mpr hs) hds,
      by simpa using hmark, rfl⟩

/-- A floating-point number has a point among its digits or an exponent behind them. -/
theorem mem_float_iff {w : List Char} :
    w ∈ language .float ↔
      (∃ ds fs ex, ds ∈ digits ∧ (∀ c ∈ fs, c.isDigit = true) ∧ ex ∈ maybe exponent ∧
        w = ds ++ '.' :: (fs ++ ex)) ∨
      ∃ ds ex, ds ∈ digits ∧ ex ∈ exponent ∧ w = ds ++ ex := by
  rw [language, Language.mem_add]
  refine or_congr ?_ ?_
  · rw [mul_assoc, mul_assoc, Language.mem_mul]
    constructor
    · rintro ⟨ds, hds, _, hv, rfl⟩
      obtain ⟨_, htail, rfl⟩ := mem_fixed_mul_iff.mp hv
      obtain ⟨fs, hfs, ex, hex, rfl⟩ := Language.mem_mul.mp htail
      exact ⟨ds, fs, ex, hds, mem_kstar_one_iff.mp hfs, hex, rfl⟩
    · rintro ⟨ds, fs, ex, hds, hfs, hex, rfl⟩
      refine ⟨ds, hds, _, mem_fixed_mul_iff.mpr ⟨fs ++ ex, ?_, rfl⟩, rfl⟩
      exact Language.append_mem_mul (mem_kstar_one_iff.mpr hfs) hex
  · rw [Language.mem_mul]
    constructor
    · rintro ⟨ds, hds, ex, hex, rfl⟩
      exact ⟨ds, ex, hds, hex, rfl⟩
    · rintro ⟨ds, ex, hds, hex, rfl⟩
      exact ⟨ds, hds, ex, hex, rfl⟩

/-- A string is a row of items in quotes. -/
theorem mem_string_iff {w : List Char} :
    w ∈ language .string ↔ ∃ items ∈ stringItem∗, w = '"' :: (items ++ ['"']) := by
  rw [language, mul_assoc, mem_fixed_mul_iff]
  constructor
  · rintro ⟨_, hv, rfl⟩
    obtain ⟨items, hitems, _, rfl, rfl⟩ := Language.mem_mul.mp hv
    exact ⟨items, hitems, rfl⟩
  · rintro ⟨items, hitems, rfl⟩
    exact ⟨_, Language.append_mem_mul hitems (show ['"'] ∈ fixed "\"" from rfl), rfl⟩

/-- An item is a character that is not special, or one behind a backslash. -/
theorem mem_stringItem_iff {w : List Char} :
    w ∈ stringItem ↔ (∃ c, c ≠ '"' ∧ c ≠ '\\' ∧ c ≠ '\n' ∧ w = [c]) ∨
      ∃ c, c ≠ '\n' ∧ w = ['\\', c] := by
  rw [stringItem, Language.mem_add, mem_fixed_mul_iff]
  refine or_congr ?_ ?_
  · simp only [mem_one_iff, Bool.and_eq_true, decide_eq_true_eq, and_assoc]
  · constructor
    · rintro ⟨_, ⟨c, hc, rfl⟩, rfl⟩
      exact ⟨c, by simpa using hc, rfl⟩
    · rintro ⟨c, hc, rfl⟩
      exact ⟨[c], ⟨c, by simpa using hc, rfl⟩, rfl⟩

end Pattern

end ClassCheck
