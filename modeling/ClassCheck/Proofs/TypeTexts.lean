import ClassCheck.Proofs.Diagnostics

/-!
# Types and their texts

A written type and the type that it stands for have the same source form. Of a type that was read
from a text this form is read back: its names are scanned as names and not as reserved words, its
sizes are written from their values and are in range again, and a reference mark stands at most at
the end. So the source form says which type it is.
-/

namespace ClassCheck

open Lexeme

/-- The parser of types yields the type from the tokens of a text, wherever it starts among them. -/
def WrittenType.ReadIn (source : String) (type : WrittenType) : Prop :=
  ∃ ts c c' bound, tokenize source = .ok ts ∧ c.ahead <:+ (Cursor.ofTokens ts).ahead ∧
    Parser.writtenType bound c = .ok (type, c')

/-- What is written and what it stands for have the same source form. -/
theorem Ty.text_ofWritten (type : WrittenType) : (ofWritten type).text = type.render := by
  induction type with
  | primitive | named => rfl
  | array element size span ih => rw [ofWritten, text, ih, WrittenType.render]
  | reference referent span ih => rw [ofWritten, text, ih, WrittenType.render]

/-! ## Sizes -/

namespace Number

/-- A text of digits has no sign. -/
theorem readSize?_of_isDigit {text : String} (h : ∀ c ∈ text.toList, c.isDigit = true) :
    readSize? text = (digits? text.toList).filter (· ≤ maxSize) := by
  unfold readSize?
  dsimp only
  split
  · rename_i heq
    rw [heq] at h
    exact absurd (h '+' List.mem_cons_self) (by decide)
  · rfl

/-- The size of a text of digits is read again from the text it is written as. -/
theorem readSize?_toString {text : String} {size : Nat}
    (htext : ∀ c ∈ text.toList, c.isDigit = true) (h : readSize? text = some size) :
    (∀ c ∈ (toString size).toList, c.isDigit = true) ∧ (toString size).toList ≠ [] ∧
      readSize? (toString size) = some size := by
  rw [readSize?_of_isDigit htext] at h
  obtain ⟨-, hrange⟩ := Option.filter_eq_some_iff.mp h
  have hdigits : (toString size).toList = Nat.toDigits 10 size := Nat.toList_repr
  have hall : ∀ c ∈ (toString size).toList, c.isDigit = true :=
    hdigits ▸ isDigit_of_mem_toDigits
  refine ⟨hall, hdigits ▸ Nat.toDigits_ne_nil, ?_⟩
  rw [readSize?_of_isDigit hall, hdigits, digits?_toDigits]
  exact Option.filter_eq_some_iff.mpr ⟨rfl, hrange⟩

end Number

private theorem Parser.sizeValue_eq_ok_iff {text : String} {size : Nat} :
    sizeValue text = .ok size ↔ Number.readSize? text = some size := by
  unfold sizeValue
  cases Number.readSize? text with
  | none => exact ⟨nofun, nofun⟩
  | some n => simp

/-! ## Tokens of a source form -/

namespace WrittenType

open Scanner

/-- What may stand behind the source form of a type: it ends the last word, and behind a reference
it is no second mark. -/
structure Leaves (type : WrittenType) (rest : List Char) : Prop where
  word : EndsWord rest
  mark : type.isReference = true → rest.head? ≠ some '&'

/-- Behind a type that is no reference a character that ends a word may stand. -/
theorem leaves_of_plain {type : WrittenType} (h : type.isReference = false) {c : Char}
    (hc : isWordChar c = false) (rest : List Char) : type.Leaves (c :: rest) := by
  refine ⟨?_, fun href => ?_⟩
  · rintro d ⟨⟩
    exact hc
  · rw [h] at href
    cases href

/-- The source form of a type that scanned tokens spell is scanned to tokens that spell it again. -/
theorem Spelled.exists_emits {type : WrittenType} {us : List TokenKind} (h : type.Spelled us)
    (hus : ∀ k ∈ us, k.Lexical) :
    ∃ vs, type.Spelled vs ∧ ∀ rest, type.Leaves rest → Emits type.render.toList vs rest := by
  induction h with
  | @primitive type span =>
    refine ⟨_, .primitive, fun rest hrest => ?_⟩
    have htext : (WrittenType.primitive type span).render = type.word.spelling := by
      cases type <;> rfl
    rw [htext]
    exact emits_keyword type.word hrest.word
  | @named name span =>
    have hname : IsName name := hus _ List.mem_cons_self
    exact ⟨_, .named, fun rest hrest => emits_name hname hrest.word⟩
  | @array ks element text size span helement _ hsize ih =>
    obtain ⟨vs, hvs, hemits⟩ := ih fun k hk => hus k (List.mem_append_left _ hk)
    have hdigits : ∀ c ∈ text.toList, c.isDigit = true := hus (.integer text) (by simp)
    obtain ⟨hall, hne, hback⟩ :=
      Number.readSize?_toString hdigits (Parser.sizeValue_eq_ok_iff.mp hsize)
    refine ⟨_, .array helement hvs (Parser.sizeValue_eq_ok_iff.mpr hback), fun rest _ => ?_⟩
    have htext : (WrittenType.array element size span).render.toList =
        element.render.toList ++ '[' :: ((toString size).toList ++ [']']) := by
      simp only [render, String.toList_append, List.append_assoc]
      rfl
    rw [htext]
    refine (hemits _ (leaves_of_plain helement rfl _)).append ?_
    exact emits_between (by decide) (by decide) (by decide)
      fun rest hrest => emits_integer hne hall hrest.word hrest.point
  | @reference ks referent span hreferent _ ih =>
    obtain ⟨vs, hvs, hemits⟩ := ih fun k hk => hus k (List.mem_append_left _ hk)
    refine ⟨_, .reference hreferent hvs, fun rest hrest => ?_⟩
    rw [render, String.toList_append]
    exact (hemits _ (leaves_of_plain hreferent rfl _)).append
      (emits_lexeme (heads_amp (hrest.mark rfl)) rfl)

/-! ## Reading back -/

/-- A type that was read is spelled by tokens that look like scanned ones. -/
theorem ReadIn.exists_spelled {source : String} {type : WrittenType} (h : type.ReadIn source) :
    ∃ us, type.Spelled us ∧ ∀ k ∈ us, k.Lexical := by
  obtain ⟨ts, c, c', bound, htokens, hahead, hparse⟩ := h
  obtain ⟨us, hus, hspelled⟩ := Parser.reads_writtenType bound c type c' hparse
  refine ⟨_, hspelled, fun k hk => (kindsBeforeEof_of_tokenize htokens).2 k ?_⟩
  rw [← Cursor.kinds_ofTokens]
  have hkinds : c.kinds ⊆ (Cursor.ofTokens ts).kinds := List.map_subset _ hahead.subset
  exact hkinds (hus.kinds ▸ List.mem_append_left _ hk)

/-- The source form of a type that was read from a text is read as that type. -/
theorem ReadIn.readsWhole {source : String} {type : WrittenType} (h : type.ReadIn source) :
    Parser.ReadsWhole Parser.writtenType type.render fun t => t.spanless = type.spanless := by
  obtain ⟨us, hspelled, hlexical⟩ := h.exists_spelled
  obtain ⟨vs, hvs, hemits⟩ := hspelled.exists_emits hlexical
  obtain ⟨ts, htokens, hkinds⟩ := (hemits [] ⟨nofun, nofun⟩).tokens 0
  have hbefore : Token.kindsBeforeEof ts = vs :=
    List.append_cancel_right ((kindsBeforeEof_of_tokenize htokens).1.symm.trans hkinds)
  refine Parser.readsWhole_of_yields htokens Parser.strips_writtenType
    (fun bound rest hlength hrest => ?_) fun _ => id
  rw [hbefore] at hlength ⊢
  exact Parser.yields_writtenType_before hvs hlength (Parser.head?_ne_of_end hrest (by simp))
    (Parser.head?_ne_of_end hrest (by simp))

end WrittenType

/-- A parser reads one text in one way. -/
theorem Parser.ReadsWhole.exists_common {α : Type} {p : Nat → Parser α} {text : String}
    {P Q : α → Prop} (hP : ReadsWhole p text P) (hQ : ReadsWhole p text Q) : ∃ a, P a ∧ Q a := by
  obtain ⟨ts, htokens, hP⟩ := hP
  obtain ⟨us, husTokens, hQ⟩ := hQ
  obtain rfl : ts = us := Except.ok.inj (htokens.symm.trans husTokens)
  obtain ⟨a, c, hparse, -, ha⟩ := hP _ le_rfl
  obtain ⟨b, d, hparse', -, hb⟩ := hQ _ le_rfl
  cases hparse.symm.trans hparse'
  exact ⟨a, ha, hb⟩

/-- A type that is read from a source text and the type it stands for are written in the same way.
What is written is read as a whole, and as the same type but for its places. Two such types are
written in the same way exactly if they stand for the same type. -/
theorem annotation_texts_faithful {source : String} {type : WrittenType}
    (h : type.ReadIn source) :
    type.render = (Ty.ofWritten type).text ∧
    Parser.ReadsWhole Parser.writtenType type.render (fun t => t.spanless = type.spanless) ∧
    ∀ source' type', WrittenType.ReadIn source' type' →
      (type.render = type'.render ↔ Ty.ofWritten type = Ty.ofWritten type') := by
  refine ⟨(Ty.text_ofWritten type).symm, h.readsWhole, fun source' type' h' => ⟨fun hsame => ?_, ?_⟩⟩
  · have hreads := h.readsWhole
    rw [hsame] at hreads
    obtain ⟨t, ht, ht'⟩ := hreads.exists_common h'.readsWhole
    rw [← Ty.ofWritten_spanless type, ← ht, ht', Ty.ofWritten_spanless]
  · intro hsame
    rw [← Ty.text_ofWritten, hsame, Ty.text_ofWritten]

/-- A reference to arrays of the objects of a class, with zeros before one size and the other as
large as it can be. -/
def wideType : WrittenType :=
  .reference (.array (.array (.named "Int" ⟨0, 3⟩) 7 ⟨0, 8⟩) 18446744073709551615 ⟨0, 31⟩) ⟨0, 32⟩

/-- The tokens of a text with that type. -/
def wideTypeTokens : List Token := [
  ⟨.identifier "Int", ⟨0, 3⟩⟩, ⟨.symbol .lbracket, ⟨3, 4⟩⟩, ⟨.integer "007", ⟨4, 7⟩⟩,
  ⟨.symbol .rbracket, ⟨7, 8⟩⟩, ⟨.symbol .lbracket, ⟨9, 10⟩⟩,
  ⟨.integer "18446744073709551615", ⟨10, 30⟩⟩, ⟨.symbol .rbracket, ⟨30, 31⟩⟩,
  ⟨.symbol .amp, ⟨31, 32⟩⟩, ⟨.eof, ⟨32, 32⟩⟩]

theorem wideType_readIn : wideType.ReadIn "Int[007] [18446744073709551615]&" :=
  ⟨wideTypeTokens, .ofTokens wideTypeTokens, _, 9, tokenize_eq_ok (by decide +kernel),
    List.suffix_rfl, rfl⟩

/-- The same type in the middle of a text, without the zeros. -/
def movedType : WrittenType :=
  .reference (.array (.array (.named "Int" ⟨2, 5⟩) 7 ⟨2, 8⟩) 18446744073709551615 ⟨2, 30⟩) ⟨2, 31⟩

/-- The tokens of that text. -/
def movedTypeTokens : List Token := [
  ⟨.identifier "x", ⟨0, 1⟩⟩, ⟨.identifier "Int", ⟨2, 5⟩⟩, ⟨.symbol .lbracket, ⟨5, 6⟩⟩,
  ⟨.integer "7", ⟨6, 7⟩⟩, ⟨.symbol .rbracket, ⟨7, 8⟩⟩, ⟨.symbol .lbracket, ⟨8, 9⟩⟩,
  ⟨.integer "18446744073709551615", ⟨9, 29⟩⟩, ⟨.symbol .rbracket, ⟨29, 30⟩⟩,
  ⟨.symbol .amp, ⟨30, 31⟩⟩, ⟨.identifier "y", ⟨32, 33⟩⟩, ⟨.eof, ⟨33, 33⟩⟩]

theorem movedType_readIn : movedType.ReadIn "x Int[7][18446744073709551615]& y" :=
  ⟨movedTypeTokens, (Cursor.ofTokens movedTypeTokens).advance, _, 9,
    tokenize_eq_ok (by decide +kernel), List.suffix_cons _ _, rfl⟩

/-- The zeros and the places are lost and the type is not. -/
theorem wideType_text_faithful :
    wideType.ReadIn "Int[007] [18446744073709551615]&" ∧
    movedType.ReadIn "x Int[7][18446744073709551615]& y" ∧
    (Ty.ofWritten wideType).text = "Int[7][18446744073709551615]&" ∧
    Parser.ReadsWhole Parser.writtenType "Int[7][18446744073709551615]&"
      (fun t => t.spanless = wideType.spanless) ∧
    wideType.render = movedType.render ∧ Ty.ofWritten wideType = Ty.ofWritten movedType := by
  have htext : wideType.render = "Int[7][18446744073709551615]&" := by decide +kernel
  obtain ⟨hsame, hreads, hmoved⟩ := annotation_texts_faithful wideType_readIn
  rw [htext] at hsame hreads
  have htypes : Ty.ofWritten wideType = Ty.ofWritten movedType := rfl
  exact ⟨wideType_readIn, movedType_readIn, hsame.symm, hreads,
    (hmoved _ _ movedType_readIn).mpr htypes, htypes⟩

end ClassCheck
