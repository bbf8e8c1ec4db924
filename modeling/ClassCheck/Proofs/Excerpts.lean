import ClassCheck.Proofs.Lossless
import ClassCheck.Proofs.Nodes
import ClassCheck.Proofs.ReadBack

/-!
# Excerpts of a text and their tokens

The piece of a text from the start of one token to the stop of another is scanned to the tokens in
between. A token is taken as long as it can be, so what stands behind it matters; but where the
text is cut off behind a token that was read, the token cannot become longer, and it does not
become shorter either.
-/

namespace ClassCheck

namespace Lexeme

/-! ## Lexemes of a text that is cut off -/

section

variable {as bs : List Char}

/-- A run that does not reach into the text cut off is as long without it. -/
theorem runLength_of_append {p : Char → Bool} (h : runLength p (as ++ bs) ≤ as.length) :
    runLength p as = runLength p (as ++ bs) := by
  induction as with
  | nil => exact (Nat.le_zero.mp h).symm
  | cons a as ih =>
    rw [List.cons_append, runLength_cons] at h
    rw [List.cons_append, runLength_cons, runLength_cons]
    by_cases ha : p a = true
    · rw [if_pos ha, List.length_cons, Nat.add_le_add_iff_right] at h
      rw [if_pos ha, if_pos ha, ih h]
    · rw [if_neg ha, if_neg ha]

private theorem signLength_le (cs : List Char) : signLength cs ≤ cs.length := by
  unfold signLength
  cases cs with
  | nil => simp
  | cons c cs => split <;> simp

/-- So is an exponent. -/
theorem exponentLength_of_append (h : exponentLength (as ++ bs) ≤ as.length) :
    exponentLength as = exponentLength (as ++ bs) := by
  cases as with
  | nil => exact (Nat.le_zero.mp h).symm
  | cons mark as =>
    rw [List.cons_append, exponentLength_cons, List.length_cons] at h
    rw [List.cons_append, exponentLength_cons, exponentLength_cons]
    by_cases hmark : mark = 'e' ∨ mark = 'E'
    · cases as with
      | nil =>
        -- A digit of the exponent would be cut off.
        have hnone : runLength Char.isDigit (bs.drop (signLength bs)) = 0 := by
          by_contra hrun
          rw [List.nil_append, if_pos ⟨hmark, hrun⟩, List.length_nil] at h
          omega
        have hempty : runLength Char.isDigit (([] : List Char).drop (signLength [])) = 0 := by
          rw [List.drop_nil]
          rfl
        rw [List.nil_append, if_neg fun hrun => hrun.2 hempty, if_neg fun hrun => hrun.2 hnone]
      | cons sign as =>
        have hsign : signLength (sign :: as ++ bs) = signLength (sign :: as) := rfl
        have hle := signLength_le (sign :: as)
        have hdrop : (sign :: as ++ bs).drop (signLength (sign :: as)) =
            (sign :: as).drop (signLength (sign :: as)) ++ bs := List.drop_append_of_le_length hle
        have hrun : runLength Char.isDigit ((sign :: as).drop (signLength (sign :: as)) ++ bs) ≤
            ((sign :: as).drop (signLength (sign :: as))).length := by
          rw [hsign, hdrop] at h
          rw [List.length_drop]
          split at h
          · omega
          · rename_i hnone
            have hzero := not_not.mp fun hrun => hnone ⟨hmark, hrun⟩
            omega
        rw [hsign, hdrop, runLength_of_append hrun]
    · simp [hmark]

/-- So is a number. -/
theorem numberTail_of_append (h : (numberTail (as ++ bs)).2 ≤ as.length) :
    numberTail as = numberTail (as ++ bs) := by
  have hlength := List.length_drop (i := runLength Char.isDigit (as ++ bs)) (l := as)
  by_cases hpoint : ((as ++ bs).drop (runLength Char.isDigit (as ++ bs))).head? = some '.'
  · obtain ⟨rest, hrest⟩ : ∃ rest,
        (as ++ bs).drop (runLength Char.isDigit (as ++ bs)) = '.' :: rest :=
      ⟨_, List.eq_cons_of_mem_head? hpoint⟩
    rw [numberTail_point hrest]
    rw [numberTail_point hrest] at h
    dsimp only at h
    have hrun := runLength_of_append (show runLength Char.isDigit (as ++ bs) ≤ as.length by omega)
    rw [List.drop_append_of_le_length (by omega)] at hrest
    -- The point is not cut off, since more than the digits before it is left.
    cases hdrop : as.drop (runLength Char.isDigit (as ++ bs)) with
    | nil =>
      rw [hdrop, List.length_nil] at hlength
      omega
    | cons c more =>
      rw [hdrop, List.length_cons] at hlength
      rw [hdrop, List.cons_append] at hrest
      obtain ⟨rfl, rfl⟩ := List.cons.inj hrest
      have hfraction := runLength_of_append
        (show runLength Char.isDigit (more ++ bs) ≤ more.length by omega)
      rw [List.drop_append_of_le_length (by omega)] at h
      have hexponent := exponentLength_of_append
        (show exponentLength (more.drop (runLength Char.isDigit (more ++ bs)) ++ bs) ≤
          (more.drop (runLength Char.isDigit (more ++ bs))).length by
            rw [List.length_drop]; omega)
      rw [← hrun] at hdrop
      rw [numberTail_point hdrop, hrun, hfraction, hexponent,
        List.drop_append_of_le_length (by omega)]
  · rw [numberTail_plain hpoint]
    rw [numberTail_plain hpoint] at h
    dsimp only at h
    have hrun := runLength_of_append (show runLength Char.isDigit (as ++ bs) ≤ as.length by omega)
    rw [List.drop_append_of_le_length (by omega)] at h hpoint
    have hexponent := exponentLength_of_append
      (show exponentLength (as.drop (runLength Char.isDigit (as ++ bs)) ++ bs) ≤
        (as.drop (runLength Char.isDigit (as ++ bs))).length by omega)
    have hplain : (as.drop (runLength Char.isDigit as)).head? ≠ some '.' := by
      intro hhead
      rw [hrun] at hhead
      rw [List.eq_cons_of_mem_head? hhead] at hpoint
      exact hpoint rfl
    rw [numberTail_plain hplain, hrun, hexponent, List.drop_append_of_le_length (by omega)]

/-- So are the items of a string that end before it. -/
theorem itemsLength_of_append (h : itemsLength (as ++ bs) < as.length) :
    itemsLength as = itemsLength (as ++ bs) := by
  fun_induction itemsLength as with
  | case1 cs => rfl
  | case2 c cs hc ih =>
    rw [List.cons_append, List.cons_append, itemsLength, if_neg hc] at h ⊢
    rw [List.length_cons, List.length_cons] at h
    rw [ih (by omega)]
  | case3 c cs hnot hc =>
    by_cases hescape : c = '\\'
    · cases cs with
      | nil =>
        -- The escaped character is cut off.
        rw [List.length_singleton, Nat.lt_one_iff] at h
        exact h.symm
      | cons d ds => exact (hnot d ds hescape rfl).elim
    · rw [List.cons_append, itemsLength, if_pos hc]
      exact fun _ _ hback _ => hescape hback
  | case4 c cs hnot hc ih =>
    have heq : itemsLength (c :: (cs ++ bs)) = itemsLength (cs ++ bs) + 1 := by
      rw [itemsLength, if_neg hc]
      exact fun _ _ hback _ => hc (.inr (.inl hback))
    rw [List.cons_append, heq, List.length_cons] at h
    rw [List.cons_append, heq, ih (by omega)]
  | case5 => exact absurd h (Nat.not_lt_zero _)

/-- So is a string that is closed before it. -/
theorem stringTail_of_append {n : Nat} (h : stringTail (as ++ bs) = (.string, n))
    (hle : n ≤ as.length) : stringTail as = (.string, n) := by
  unfold stringTail at h
  dsimp only at h
  split at h
  · rename_i rest hrest
    obtain rfl := (Prod.mk.inj h).2
    have hitems := itemsLength_of_append (show itemsLength (as ++ bs) < as.length by omega)
    have hlength := List.length_drop (i := itemsLength (as ++ bs)) (l := as)
    rw [List.drop_append_of_le_length (by omega)] at hrest
    unfold stringTail
    dsimp only
    rw [hitems]
    cases hdrop : as.drop (itemsLength (as ++ bs)) with
    | nil =>
      rw [hdrop, List.length_nil] at hlength
      omega
    | cons c more =>
      rw [hdrop, List.cons_append] at hrest
      obtain ⟨rfl, -⟩ := List.cons.inj hrest
      rfl
  · cases h

/-- So is a sign. -/
theorem signTail_of_append {c : Char} {sign : Symbol} {n : Nat}
    (h : signTail c (as ++ bs) = (.sign sign, n)) (hle : n ≤ as.length) :
    signTail c as = (.sign sign, n) := by
  cases as with
  | cons d as =>
    unfold signTail at h ⊢
    rw [List.cons_append] at h
    dsimp only at h ⊢
    by_cases hopen : c = '/' ∧ d = '*'
    · rw [if_pos hopen] at h
      cases h
    · rw [if_neg hopen] at h ⊢
      exact h
  | nil =>
    rw [List.nil_append] at h
    obtain rfl := Nat.le_zero.mp hle
    unfold signTail at h
    split at h
    · exact h
    · split at h
      · cases h
      · -- A second character of the sign would be cut off.
        split at h
        · cases h
        · exact h

/-- Where there are no trivia in front, the first character starts none, and what comes behind it
matters only to a slash. -/
theorem triviumLength_of_front {c : Char} {cs : List Char} (h : triviumLength (c :: cs) = 0)
    {ds : List Char} (hopen : ¬ (c = '/' ∧ ds.head? = some '*')) :
    triviumLength (c :: ds) = 0 := by
  have hblank : ¬ isBlank c = true := by
    intro hblank
    rw [triviumLength_blank hblank, runLength_cons, if_pos hblank] at h
    cases h
  have hhash : c ≠ '#' := by
    rintro rfl
    rw [triviumLength_hash] at h
    omega
  rw [triviumLength, if_neg hblank, if_neg hhash]
  rintro rest rfl rfl
  exact hopen ⟨rfl, rfl⟩

/-- The shape and the length of a token do not depend on what is cut off behind it. -/
theorem tail_of_append {shape : Shape} {c : Char} {n : Nat} {text : String} {k : TokenKind}
    (h : tail c (as ++ bs) = (shape, n)) (hle : n ≤ as.length)
    (hk : classify shape text = .ok k) : tail c as = (shape, n) := by
  unfold tail at h ⊢
  by_cases hquote : c = '"'
  · rw [if_pos hquote] at h ⊢
    have hstring : shape = .string := by
      unfold stringTail at h
      dsimp only at h
      split at h
      · exact (Prod.mk.inj h).1.symm
      · cases h
        cases hk
    subst hstring
    exact stringTail_of_append h hle
  rw [if_neg hquote] at h ⊢
  by_cases hstart : isWordStart c = true
  · rw [if_pos hstart] at h ⊢
    obtain ⟨rfl, rfl⟩ := Prod.mk.inj h
    rw [runLength_of_append hle]
  rw [if_neg hstart] at h ⊢
  by_cases hdigit : c.isDigit = true
  · rw [if_pos hdigit] at h ⊢
    rw [numberTail_of_append (by rw [h]; exact hle), h]
  rw [if_neg hdigit] at h ⊢
  have hsign : ∃ sign, shape = .sign sign := by
    obtain hsign | hshape | hshape := signTail_shape c (as ++ bs)
    · rwa [h] at hsign
    · rw [h] at hshape
      dsimp only at hshape
      subst hshape
      cases hk
    · rw [h] at hshape
      dsimp only at hshape
      subst hshape
      cases hk
  obtain ⟨sign, rfl⟩ := hsign
  exact signTail_of_append h hle

/-- A token is read as well if the text is cut off somewhere behind it. -/
theorem Heads.of_append {shape : Shape} {c : Char} {more rest rest' : List Char} {k : TokenKind}
    (h : Heads shape c more (rest ++ rest'))
    (hk : classify shape (String.ofList (c :: more)) = .ok k) : Heads shape c more rest := by
  obtain ⟨htrivia, htail⟩ := h
  rw [← List.append_assoc] at htrivia htail
  refine ⟨triviumLength_of_front htrivia ?_, tail_of_append htail (by simp) hk⟩
  rintro ⟨rfl, hstar⟩
  rw [List.eq_cons_of_mem_head? hstar] at htail
  have hshape : Shape.openComment = shape := congrArg Prod.fst htail
  subst hshape
  cases hk

end

end Lexeme

/-! ## Tokens of an excerpt -/

namespace Scanner

open Lexeme

/-- What is read in two runs is read in one after the other. -/
theorem Reads.split {s s' : Scanner} {as bs : List Answer} (h : Reads s (as ++ bs) s') :
    ∃ middle, Reads s as middle ∧ Reads middle bs s' := by
  induction as generalizing s with
  | nil => exact ⟨s, .done s, h⟩
  | cons a as ih =>
    cases h with
    | lexeme hw hheads hrest =>
      obtain ⟨middle, has, hbs⟩ := ih hrest
      exact ⟨middle, .lexeme hw hheads has, hbs⟩

/-- The piece that tokens in a row were read from is scanned to these tokens by itself. -/
theorem Reads.exists_excerpt {s s' : Scanner} {us : List Token} (hne : us ≠ [])
    (h : Reads s (us.map Except.ok) s') :
    ∃ w part, s.rest = w ++ (part ++ s'.rest) ∧ part ≠ [] ∧ Trivia w ∧
      Token.extent us =
        ⟨s.offset + Text.byteLength w, s.offset + Text.byteLength (w ++ part)⟩ ∧
      Emits part (us.map Token.kind) [] := by
  induction us generalizing s with
  | nil => exact absurd rfl hne
  | cons u us ih =>
    rw [List.map_cons] at h
    generalize hfirst : (Except.ok u : Answer) = a at h
    cases h with
    | @lexeme shape c w more rest offset _ _ hw hheads hrest =>
      obtain ⟨hkind, huspan⟩ := Answer.eq_of_ofLexeme_eq_ok hfirst.symm
      cases us with
      | nil =>
        cases hrest
        refine ⟨w, c :: more, rfl, List.cons_ne_nil _ _, hw, ?_, ?_⟩
        · rw [Token.extent_singleton, huspan, Text.byteLength_append, Nat.add_assoc]
        · exact emits_lexeme (hheads.of_append hkind) hkind
      | cons v vs =>
        obtain ⟨w', part, hpart, -, hw', hextent, hemits⟩ := ih (List.cons_ne_nil _ _) hrest
        dsimp only at hpart
        subst hpart
        refine ⟨w, c :: more ++ (w' ++ part), by simp, List.cons_ne_nil _ _, hw, ?_, ?_⟩
        · rw [← List.singleton_append, Token.extent_append (by simp) (by simp), hextent,
            Token.extent_singleton, huspan]
          simp [Nat.add_assoc]
        · rw [← List.append_assoc] at hheads
          have hcut : Emits (c :: more) [u.kind] (w' ++ part ++ []) := by
            rw [List.append_nil]
            exact emits_lexeme (hheads.of_append hkind) hkind
          exact hcut.append (hemits.trivia hw')

private theorem eq_map_of_mapM {answers : List Answer} {us : List Token}
    (h : List.mapM id answers = .ok us) : answers = us.map Except.ok := by
  induction answers generalizing us with
  | nil =>
    cases h
    rfl
  | cons a answers ih =>
    rw [List.mapM_cons] at h
    cases a with
    | error e => cases h
    | ok u =>
      cases hus : List.mapM id answers with
      | error e =>
        rw [hus] at h
        cases h
      | ok us =>
        rw [hus] at h
        cases h
        rw [ih hus]
        rfl

/-- A text that has tokens was read without an error. -/
theorem exists_reads_of_tokenize {source : String} {ts : List Token}
    (h : tokenize source = .ok ts) :
    ∃ us s', ts = us ++ [⟨.eof, .point source.utf8ByteSize⟩] ∧
      Reads (.ofText source) (us.map Except.ok) s' ∧ s'.AtEnd := by
  obtain ⟨answers, s', hreads, hend⟩ := (Scanner.ofText source).exists_reads
  rw [hreads.tokenize_ofText hend, List.mapM_append] at h
  cases hus : List.mapM id answers with
  | error e =>
    rw [hus] at h
    cases h
  | ok us =>
    rw [hus] at h
    cases h
    rw [eq_map_of_mapM hus] at hreads
    exact ⟨us, s', rfl, hreads, hend⟩

private theorem mem_of_mapM_eq_error {answers : List Answer} {e : LexicalError}
    (h : List.mapM id answers = .error e) : .error e ∈ answers := by
  induction answers with
  | nil => cases h
  | cons a answers ih =>
    rw [List.mapM_cons] at h
    cases a with
    | error e' =>
      cases h
      exact List.mem_cons_self
    | ok u =>
      cases hrest : List.mapM id answers with
      | error e' =>
        rw [hrest] at h
        cases h
        exact List.mem_cons_of_mem _ (ih hrest)
      | ok us =>
        rw [hrest] at h
        cases h

/-- The error of a text without tokens is one of the answers. -/
theorem exists_reads_of_error {source : String} {e : LexicalError}
    (h : tokenize source = .error e) :
    ∃ answers s', Reads (.ofText source) answers s' ∧ s'.AtEnd ∧ .error e ∈ answers := by
  obtain ⟨answers, s', hreads, hend⟩ := (Scanner.ofText source).exists_reads
  rw [hreads.tokenize_ofText hend] at h
  have hmem := mem_of_mapM_eq_error h
  rw [List.mem_append, List.mem_singleton] at hmem
  exact ⟨answers, s', hreads, hend, hmem.resolve_right nofun⟩

end Scanner

/-- The piece of a text from the start of a token to the stop of the same or a later one is scanned
to the tokens in between. -/
theorem exists_excerpt {source : String} {before us after : List Token} {s' : Scanner}
    (h : Scanner.Reads (.ofText source) ((before ++ us ++ after).map Except.ok) s')
    (hne : us ≠ []) :
    ∃ part ts, Text.slice? source (Token.extent us) = some part ∧ part ≠ "" ∧
      tokenize part = .ok ts ∧ ts.map Token.kind = us.map Token.kind ++ [.eof] := by
  rw [List.map_append, List.map_append] at h
  obtain ⟨right, hread, hafter⟩ := h.split
  obtain ⟨left, hbefore, hus⟩ := hread.split
  obtain ⟨skipped, hskipped, hleft⟩ := hbefore.frame
  obtain ⟨w, part, hpart, hpartne, hw, hextent, hemits⟩ := hus.exists_excerpt hne
  obtain ⟨ts, hts, hkinds⟩ := hemits.tokens 0
  refine ⟨String.ofList part, ts, ?_, ?_, ?_, hkinds⟩
  · refine Text.slice?_eq_some_iff.mpr ⟨skipped ++ w, right.rest, ?_, ?_⟩
    · rw [String.toList_ofList, List.append_assoc, List.append_assoc, ← hpart]
      exact hskipped
    · have hstart : left.offset = Text.byteLength skipped := hleft.trans (Nat.zero_add _)
      rw [hextent, hstart, String.toList_ofList]
      simp
  · intro hempty
    rw [String.ofList_eq_empty_iff] at hempty
    exact hpartne hempty
  · rw [tokenize, Scanner.ofText, String.toList_ofList, hts]

end ClassCheck
