import ClassCheck.Span
import ClassCheck.Text.Position
import Mathlib.Data.List.Basic

/-!
# Slices of a text

A span cuts a piece out of a text. Its offsets count bytes, so both of them have to lie between
two characters or at an end of the text; a span that starts or stops inside a character, reaches
behind the text or runs backwards cuts out nothing.
-/

namespace ClassCheck.Text

/-- A text split behind so many bytes, if a character ends there. -/
def splitBytes? : Nat → List Char → Option (List Char × List Char)
  | 0, cs => some ([], cs)
  | _ + 1, [] => none
  | n + 1, c :: cs =>
    if c.utf8Size ≤ n + 1 then
      (splitBytes? (n + 1 - c.utf8Size) cs).map fun split => (c :: split.1, split.2)
    else none

/-- The piece of a text that a span covers. -/
def slice? (text : String) (span : Span) : Option String :=
  if span.start ≤ span.stop then do
    let front ← splitBytes? span.start text.toList
    let back ← splitBytes? span.length front.2
    pure (String.ofList back.1)
  else none

/-- A text that is not empty has bytes. -/
theorem byteLength_pos {cs : List Char} (h : cs ≠ []) : 0 < byteLength cs := by
  obtain ⟨c, cs, rfl⟩ := List.exists_cons_of_ne_nil h
  have hsize := c.utf8Size_pos
  rw [byteLength_cons]
  omega

/-- A text without bytes is empty. -/
theorem eq_nil_of_byteLength {cs : List Char} (h : byteLength cs = 0) : cs = [] := by
  by_contra hne
  have hpos := byteLength_pos hne
  omega

/-- A text is split exactly where a part of it ends that has so many bytes. -/
theorem splitBytes?_eq_some_iff {n : Nat} {cs front back : List Char} :
    splitBytes? n cs = some (front, back) ↔ cs = front ++ back ∧ n = byteLength front := by
  induction cs generalizing n front with
  | nil =>
    cases n with
    | zero => cases front <;> simp [splitBytes?, eq_comm]
    | succ n =>
      constructor
      · rintro ⟨⟩
      · rintro ⟨hnil, hn⟩
        rw [(List.append_eq_nil_iff.mp hnil.symm).1] at hn
        cases hn
  | cons c cs ih =>
    have hsize := c.utf8Size_pos
    cases n with
    | zero =>
      cases front with
      | nil => simp [splitBytes?]
      | cons d front =>
        have hpos := byteLength_pos (List.cons_ne_nil d front)
        refine ⟨nofun, fun h => ?_⟩
        omega
    | succ n =>
      rw [splitBytes?]
      cases front with
      | nil =>
        refine ⟨fun h => ?_, nofun⟩
        split at h
        · obtain ⟨split, -, hsplit⟩ := Option.map_eq_some_iff.mp h
          cases hsplit
        · cases h
      | cons d front =>
        rw [List.cons_append, List.cons.injEq, byteLength_cons]
        constructor
        · intro h
          split at h
          · rename_i hle
            obtain ⟨split, hsplit, heq⟩ := Option.map_eq_some_iff.mp h
            cases heq
            obtain ⟨hcs, hn⟩ := ih.mp hsplit
            exact ⟨⟨rfl, hcs⟩, by omega⟩
          · cases h
        · rintro ⟨⟨rfl, hcs⟩, hn⟩
          have hrest : splitBytes? (n + 1 - c.utf8Size) cs = some (front, back) :=
            ih.mpr ⟨hcs, by omega⟩
          rw [if_pos (by omega), hrest]
          rfl

/-- Counting the bytes of the characters gives the size of the text. -/
theorem byteLength_toList (text : String) : byteLength text.toList = text.utf8ByteSize := by
  have hsize : ∀ cs : List Char, byteLength cs = (String.ofList cs).utf8ByteSize := by
    intro cs
    induction cs with
    | nil => rfl
    | cons c cs ih => rw [byteLength_cons, ih]; simp
  rw [hsize, String.ofList_toList]

/-- A front part of a text ends between two of its characters or at one of its ends. -/
theorem isValid_of_append {text : String} {front back : List Char}
    (h : text.toList = front ++ back) :
    String.Pos.Raw.IsValid text ⟨byteLength front⟩ := by
  refine String.Pos.Raw.isValid_iff_exists_append.mpr
    ⟨String.ofList front, String.ofList back, ?_, ?_⟩
  · rw [← String.ofList_toList (s := text), h, String.ofList_append]
  · have hsize := byteLength_toList (String.ofList front)
    rw [String.toList_ofList] at hsize
    rw [hsize]
    rfl

/-- The slice at a span stands in the text behind as many bytes as the span starts with, and
takes the bytes up to the stop of the span. -/
theorem slice?_eq_some_iff {text part : String} {span : Span} :
    slice? text span = some part ↔
      ∃ before after, text.toList = before ++ part.toList ++ after ∧
        span = ⟨byteLength before, byteLength (before ++ part.toList)⟩ := by
  obtain ⟨start, stop⟩ := span
  unfold slice?
  constructor
  · intro h
    split at h
    · rename_i hle
      dsimp only [Span.length] at h hle
      obtain ⟨⟨before, rest⟩, hbefore, h⟩ := Option.bind_eq_some_iff.mp h
      obtain ⟨⟨middle, after⟩, hmiddle, h⟩ := Option.bind_eq_some_iff.mp h
      cases h
      obtain ⟨htext, rfl⟩ := splitBytes?_eq_some_iff.mp hbefore
      obtain ⟨rfl, hstop⟩ := splitBytes?_eq_some_iff.mp hmiddle
      refine ⟨before, after, ?_, ?_⟩
      · rw [htext, String.toList_ofList, List.append_assoc]
      · rw [String.toList_ofList, byteLength_append, ← hstop, Nat.add_sub_cancel' hle]
    · cases h
  · rintro ⟨before, after, htext, hspan⟩
    rw [Span.mk.injEq] at hspan
    obtain ⟨rfl, rfl⟩ := hspan
    have hbefore : splitBytes? (byteLength before) text.toList =
        some (before, part.toList ++ after) :=
      splitBytes?_eq_some_iff.mpr ⟨by rw [htext, List.append_assoc], rfl⟩
    have hmiddle : splitBytes? (byteLength part.toList) (part.toList ++ after) =
        some (part.toList, after) := splitBytes?_eq_some_iff.mpr ⟨rfl, rfl⟩
    rw [if_pos (by simp), Span.length, byteLength_append, Nat.add_sub_cancel_left, hbefore]
    change (splitBytes? _ (part.toList ++ after) >>= _) = _
    rw [hmiddle]
    exact congrArg some String.ofList_toList

section

variable {text part : String} {span : Span} (h : slice? text span = some part)

include h

/-- A span that cuts something out starts and stops between characters of the text. -/
theorem isValid_of_slice? :
    String.Pos.Raw.IsValid text ⟨span.start⟩ ∧ String.Pos.Raw.IsValid text ⟨span.stop⟩ := by
  obtain ⟨before, after, htext, rfl⟩ := slice?_eq_some_iff.mp h
  constructor
  · rw [List.append_assoc] at htext
    exact isValid_of_append htext
  · exact isValid_of_append htext

/-- It does not reach behind the text. -/
theorem stop_le_of_slice? : span.stop ≤ text.utf8ByteSize := by
  obtain ⟨before, after, htext, rfl⟩ := slice?_eq_some_iff.mp h
  have hlength := byteLength_append (before ++ part.toList) after
  rw [← byteLength_toList, htext, hlength]
  exact Nat.le_add_right _ _

/-- It has as many bytes as the piece. -/
theorem stop_of_slice? : span.stop = span.start + byteLength part.toList := by
  obtain ⟨before, after, -, rfl⟩ := slice?_eq_some_iff.mp h
  exact byteLength_append before part.toList

end

/-- Of two front parts of a text, the one with no more bytes is a front part of the other. -/
theorem prefix_of_byteLength_le {as bs text : List Char} (has : as <+: text) (hbs : bs <+: text)
    (h : byteLength as ≤ byteLength bs) : as <+: bs := by
  rcases List.prefix_or_prefix_of_prefix has hbs with hin | ⟨more, rfl⟩
  · exact hin
  · rw [byteLength_append] at h
    have hnil : more = [] := eq_nil_of_byteLength (by omega)
    exact ⟨[], by rw [hnil, List.append_nil, List.append_nil]⟩

/-- Of one text two fronts of the same length in bytes are equal. -/
theorem eq_of_byteLength_eq {as bs text : List Char} (has : as <+: text) (hbs : bs <+: text)
    (h : byteLength as = byteLength bs) : as = bs :=
  (prefix_of_byteLength_le has hbs (Nat.le_of_eq h)).eq_of_length_le
    (prefix_of_byteLength_le hbs has (Nat.le_of_eq h.symm)).length_le

/-- A slice that starts behind a front part of the text is cut out of the rest. -/
theorem slice?_behind {text part : String} {before rest : List Char}
    (h : text.toList = before ++ rest) {start stop : Nat} (hle : byteLength before ≤ start) :
    slice? text ⟨start, stop⟩ = some part ↔
      ∃ front back, rest = front ++ part.toList ++ back ∧
        start = byteLength before + byteLength front ∧
        stop = start + byteLength part.toList := by
  rw [slice?_eq_some_iff]
  constructor
  · rintro ⟨left, right, htext, hspan⟩
    obtain ⟨rfl, rfl⟩ := Span.mk.inj hspan
    have hleft : left <+: text.toList := ⟨part.toList ++ right, by rw [htext, List.append_assoc]⟩
    obtain ⟨front, rfl⟩ := prefix_of_byteLength_le ⟨rest, h.symm⟩ hleft hle
    refine ⟨front, right, ?_, byteLength_append _ _, byteLength_append _ _⟩
    rw [h, List.append_assoc, List.append_assoc] at htext
    rw [List.append_cancel_left htext, List.append_assoc]
  · rintro ⟨front, back, rfl, rfl, rfl⟩
    refine ⟨before ++ front, back, ?_, ?_⟩
    · rw [h]
      simp only [List.append_assoc]
    · rw [byteLength_append (before ++ front), byteLength_append before]

end ClassCheck.Text
