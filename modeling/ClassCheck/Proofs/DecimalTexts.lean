import ClassCheck.Proofs.Lexemes
import ClassCheck.Proofs.Rounding

/-!
# Floating-point values read back

The text of a finite value is read as that value again. The decimal behind the text was either
tried out before it was taken, or has the exact value; what is left is that neither the zeros
that are moved into the exponent nor the place of the point change what is read.
-/

namespace ClassCheck.Number

open Binary64

/-! ## The decimal that is written -/

/-- Zeros moved into the exponent do not change the value. -/
theorem ofDecimal_trim (bound : Nat) (d : Decimal) :
    ofDecimal false (d.trim bound).digits (d.trim bound).exponent =
      ofDecimal false d.digits d.exponent := by
  induction bound generalizing d with
  | zero => rfl
  | succ bound ih =>
    rw [Decimal.trim]
    by_cases h : d.digits ≠ 0 ∧ d.digits % 10 = 0
    · rw [if_pos h, ih]
      apply ofDecimal_congr
      have htens : (10 : ℚ) * (d.digits / 10 : Nat) = d.digits := by
        exact_mod_cast Nat.mul_div_cancel' (Nat.dvd_of_mod_eq_zero h.2)
      calc ((d.digits / 10 : Nat) : ℚ) * 10 ^ (d.exponent + 1)
          = 10 * (d.digits / 10 : Nat) * 10 ^ d.exponent := by
            rw [zpow_add_one₀ (by norm_num)]
            ring
        _ = d.digits * 10 ^ d.exponent := by rw [htens]
    · rw [if_neg h]

/-- The exact decimal has the value that is written. -/
theorem exactDecimal_value (m : Nat) (q : Int) :
    ((exactDecimal m q).digits : ℚ) * 10 ^ (exactDecimal m q).exponent = m * 2 ^ q := by
  unfold exactDecimal
  by_cases hq : 0 ≤ q
  · rw [if_pos hq, Nat.pow_eq]
    push_cast
    rw [mul_one, ← zpow_natCast, Int.toNat_of_nonneg hq]
  · have hten : (10 : ℚ) ^ q = 2 ^ q * 5 ^ q := by
      rw [← mul_zpow]
      norm_num
    have hfive : (5 : ℚ) ^ (-q).toNat * 5 ^ q = 1 := by
      rw [← zpow_natCast, Int.toNat_of_nonneg (by omega), ← zpow_add₀ (by norm_num),
        Int.add_left_neg, zpow_zero]
    rw [if_neg hq, Nat.pow_eq]
    push_cast
    calc (m : ℚ) * 5 ^ (-q).toNat * 10 ^ q = m * 2 ^ q * (5 ^ (-q).toNat * 5 ^ q) := by
          rw [hten]
          ring
      _ = m * 2 ^ q := by rw [hfive, mul_one]

/-- A decimal that was tried out reads back. -/
theorem readsBack_of_candidate? {m num den count : Nat} {q scale : Int} {d : Decimal}
    (h : candidate? m q num den scale count = some d) : readsBack m q d = true := by
  unfold candidate? at h
  dsimp only at h
  split at h
  · rename_i hbelow habove
    split at h
    · exact Option.some.inj h ▸ hbelow
    · exact Option.some.inj h ▸ habove
  · rename_i hbelow _
    exact Option.some.inj h ▸ hbelow
  · rename_i _ habove
    exact Option.some.inj h ▸ habove
  · cases h

/-- The shortest decimal of a value of the format is read as that value. -/
theorem ofDecimal_shortest {m : Nat} {q : Int} (hm : 0 < m) (h : Canonical m q) :
    ofDecimal false (shortest m q).digits (shortest m q).exponent = .finite false m q := by
  unfold shortest
  dsimp only
  rw [ofDecimal_trim]
  cases hfound : (List.range' 1 17).findSome? (candidate? m q (scaleDown m 1 (-q)).1
      (scaleDown m 1 (-q)).2 (decimalScale (scaleDown m 1 (-q)).1 (scaleDown m 1 (-q)).2)) with
  | none => exact ofDecimal_of_canonical false hm h (exactDecimal_value m q)
  | some d =>
    obtain ⟨count, -, hcandidate⟩ := List.exists_of_findSome?_eq_some hfound
    have hreads := readsBack_of_candidate? hcandidate
    exact of_decide_eq_true hreads

/-! ## Digits -/

private theorem ofDigits_toDigits (n : Nat) : ofDigits (Nat.toDigits 10 n) = n :=
  Nat.ofDigitChars_ten_toDigits

/-- Zeros in front do not change a number. -/
theorem ofDigits_zeros_append (k : Nat) (ds : List Char) :
    ofDigits (List.replicate k '0' ++ ds) = ofDigits ds := by
  have happend : ofDigits (List.replicate k '0' ++ ds) =
      Nat.ofDigitChars 10 ds (Nat.ofDigitChars 10 (List.replicate k '0') 0) :=
    Nat.ofDigitChars_append 0
  rw [happend, Nat.ofDigitChars_replicate_zero, Nat.mul_zero]
  rfl

/-- Zeros behind multiply it by ten each. -/
theorem ofDigits_append_zeros (ds : List Char) (k : Nat) :
    ofDigits (ds ++ List.replicate k '0') = 10 ^ k * ofDigits ds := by
  have happend : ofDigits (ds ++ List.replicate k '0') =
      Nat.ofDigitChars 10 (List.replicate k '0') (ofDigits ds) :=
    Nat.ofDigitChars_append 0
  rw [happend, Nat.ofDigitChars_replicate_zero]

/-- Digits up to the first character that is none. -/
theorem span_digits {ds rest : List Char} (hds : ∀ d ∈ ds, d.isDigit = true)
    (hrest : ∀ c, rest.head? = some c → c.isDigit = false) :
    (ds ++ rest).takeWhile Char.isDigit = ds ∧ (ds ++ rest).dropWhile Char.isDigit = rest := by
  have hhead : rest.takeWhile Char.isDigit = [] ∧ rest.dropWhile Char.isDigit = rest := by
    cases rest with
    | nil => exact ⟨rfl, rfl⟩
    | cons c cs => simp [hrest c rfl]
  rw [List.takeWhile_append_of_pos hds, List.dropWhile_append_of_pos hds, hhead.1, hhead.2,
    List.append_nil]
  exact ⟨rfl, rfl⟩

/-- An exponent is read back. -/
theorem readExponent?_toString (exponent : Int) :
    readExponent? ('e' :: (toString exponent).toList) = some exponent := by
  unfold readExponent?
  dsimp only
  rw [if_pos (.inl rfl)]
  cases exponent with
  | ofNat n =>
    have hall := @isDigit_of_mem_toDigits n
    rw [Int.ofNat_eq_natCast, toList_toString_ofNat]
    split
    · rename_i heq
      rw [heq] at hall
      exact absurd (hall '-' List.mem_cons_self) (by decide)
    · rename_i heq
      rw [heq] at hall
      exact absurd (hall '+' List.mem_cons_self) (by decide)
    · rw [digits?_toDigits]
      rfl
  | negSucc n =>
    rw [toList_toString_negSucc]
    change (digits? (Nat.toDigits 10 (n + 1))).map (fun n => -(n : Int)) = _
    rw [digits?_toDigits]
    rfl

/-! ## Reading what is written -/

/-- A decimal with a point is read from the digits on both sides of it. -/
theorem readDecimal?_point {whole fraction ex : List Char} (hne : whole ≠ [])
    (hwhole : ∀ d ∈ whole, d.isDigit = true) (hfraction : ∀ d ∈ fraction, d.isDigit = true)
    (hex : ∀ c, ex.head? = some c → c.isDigit = false) :
    readDecimal? false (whole ++ '.' :: (fraction ++ ex)) =
      (readExponent? ex).map fun exponent =>
        ofDecimal false (ofDigits (whole ++ fraction)) (exponent - fraction.length) := by
  have hpoint : ∀ c, ('.' :: (fraction ++ ex)).head? = some c → c.isDigit = false := by
    rintro c ⟨⟩
    rfl
  obtain ⟨htake, hdrop⟩ := span_digits hwhole hpoint
  obtain ⟨htake', hdrop'⟩ := span_digits hfraction hex
  unfold readDecimal?
  rw [htake, hdrop]
  change (if whole ++ (fraction ++ ex).takeWhile Char.isDigit = [] then none
    else (readExponent? ((fraction ++ ex).dropWhile Char.isDigit)).map fun exponent =>
      ofDecimal false (ofDigits (whole ++ (fraction ++ ex).takeWhile Char.isDigit))
        (exponent - ((fraction ++ ex).takeWhile Char.isDigit).length)) = _
  rw [htake', hdrop', if_neg (List.append_ne_nil_of_left_ne_nil hne _)]

/-- A decimal without a point is read from its digits and its exponent. -/
theorem readDecimal?_mark {whole ex : List Char} (hne : whole ≠ [])
    (hwhole : ∀ d ∈ whole, d.isDigit = true) :
    readDecimal? false (whole ++ 'e' :: ex) =
      (readExponent? ('e' :: ex)).map fun exponent =>
        ofDecimal false (ofDigits whole) exponent := by
  have hmark : ∀ c, ('e' :: ex).head? = some c → c.isDigit = false := by
    rintro c ⟨⟩
    rfl
  obtain ⟨htake, hdrop⟩ := span_digits hwhole hmark
  unfold readDecimal?
  rw [htake, hdrop]
  change (if whole ++ [] = [] then none
    else (readExponent? ('e' :: ex)).map fun exponent =>
      ofDecimal false (ofDigits (whole ++ [])) (exponent - 0)) = _
  simp only [List.append_nil, if_neg hne, Int.sub_zero]

/-- Where the point stands does not change what is read. -/
theorem readDecimal?_placePoint (digits : Nat) (exponent : Int) :
    readDecimal? false (placePoint (Nat.toDigits 10 digits)
      (exponent + (Nat.toDigits 10 digits).length)) = some (ofDecimal false digits exponent) := by
  obtain ⟨whole, fraction, before, behind, htext, hwhole, hdigits, hlength⟩ :=
    exists_placePoint (@Nat.toDigits_ne_nil digits 10) (exponent + (Nat.toDigits 10 digits).length)
  have hall := isDigit_of_zeros_around (@isDigit_of_mem_toDigits digits) before behind
  rw [← hdigits, List.forall_mem_append] at hall
  have hnone : ∀ c, ([] : List Char).head? = some c → c.isDigit = false := nofun
  have hread := readDecimal?_point hwhole hall.1 hall.2 hnone
  rw [List.append_nil] at hread
  have hvalue : ofDigits (whole ++ fraction) = 10 ^ behind * digits := by
    rw [hdigits, ofDigits_append_zeros, ofDigits_zeros_append, ofDigits_toDigits]
  have hexponent : (0 : Int) - fraction.length = exponent - behind := by omega
  rw [htext, hread, readExponent?, Option.map_some, hvalue, hexponent]
  apply congrArg some
  apply ofDecimal_congr
  push_cast
  rw [zpow_sub₀ (by norm_num), zpow_natCast]
  field_simp

/-- A decimal that is written with an exponent is read back. -/
theorem readDecimal?_withExponent (digits : Nat) (exponent : Int) :
    readDecimal? false (withExponent (Nat.toDigits 10 digits)
      (exponent + (Nat.toDigits 10 digits).length - 1)) =
        some (ofDecimal false digits exponent) := by
  have hall := @isDigit_of_mem_toDigits digits
  have hvalue := ofDigits_toDigits digits
  have hne : Nat.toDigits 10 digits ≠ [] := Nat.toDigits_ne_nil
  generalize Nat.toDigits 10 digits = ds at hall hvalue hne ⊢
  obtain ⟨c, ds, rfl⟩ := List.exists_cons_of_ne_nil hne
  have hex := readExponent?_toString (exponent + (c :: ds).length - 1)
  unfold withExponent
  cases ds with
  | nil =>
    dsimp only
    rw [readDecimal?_mark hne hall, hex, hvalue, Option.map_some]
    congr 2
    simp
  | cons d ds =>
    rw [List.forall_mem_cons] at hall
    have hmark : ∀ x, ('e' :: (toString (exponent + (c :: d :: ds).length - 1)).toList).head? =
        some x → x.isDigit = false := by
      rintro x ⟨⟩
      rfl
    have hpoint := readDecimal?_point (List.cons_ne_nil c []) (by simpa using hall.1) hall.2 hmark
    refine hpoint.trans ?_
    rw [hex, Option.map_some, List.singleton_append, hvalue]
    congr 2
    simp only [List.length_cons]
    omega

/-- A decimal is read from its text. -/
theorem readDecimal?_chars (d : Decimal) :
    readDecimal? false d.chars = some (ofDecimal false d.digits d.exponent) := by
  unfold Decimal.chars
  dsimp only
  split
  · exact readDecimal?_placePoint d.digits d.exponent
  · exact readDecimal?_withExponent d.digits d.exponent

/-- A text that starts with a digit is no word and has no sign. -/
theorem read?_of_isDigit {c : Char} {cs : List Char} (hc : c.isDigit = true) :
    read? (String.ofList (c :: cs)) = readDecimal? false (c :: cs) := by
  have hlower : c.toLower = c := by
    refine dif_neg fun hupper => ?_
    have hletter := Lexeme.isWordStart_of_isDigit hc
    unfold Lexeme.isWordStart Char.isAlpha Char.isUpper at hletter
    simp_all
  have hword : ∀ d ds, d.isDigit = false →
      String.ofList ((c :: cs).map Char.toLower) ≠ String.ofList (d :: ds) := by
    intro d ds hd heq
    have hhead := congrArg String.toList heq
    rw [String.toList_ofList, String.toList_ofList, List.map_cons, hlower, List.cons.injEq] at hhead
    rw [← hhead.1, hc] at hd
    cases hd
  unfold read?
  rw [String.toList_ofList]
  split
  · rename_i heq
    rw [List.cons.injEq] at heq
    rw [heq.1] at hc
    cases hc
  · rename_i heq
    rw [List.cons.injEq] at heq
    rw [heq.1] at hc
    cases hc
  · unfold readUnsigned?
    rw [if_neg, if_neg]
    · exact hword 'n' ['a', 'n'] rfl
    · rintro (h | h)
      · exact hword 'i' ['n', 'f'] rfl h
      · exact hword 'i' ['n', 'f', 'i', 'n', 'i', 't', 'y'] rfl h

namespace Binary64

/-- A text that starts with a digit is read as a value of the format without a minus sign, if it
is read as a finite one. -/
theorem canonical_of_read? {c : Char} {cs : List Char} {s : Bool} {m : Nat} {q : Int}
    (hc : c.isDigit = true) (h : read? (String.ofList (c :: cs)) = some (.finite s m q)) :
    s = false ∧ Canonical m q := by
  rw [read?_of_isDigit hc] at h
  unfold readDecimal? at h
  obtain ⟨-, hmap⟩ := Option.ite_none_left_eq_some.mp h
  obtain ⟨exponent, -, hvalue⟩ := Option.map_eq_some_iff.mp hmap
  exact canonical_of_ofDecimal hvalue

/-- A value of the format is read from its text. -/
theorem read?_text {m : Nat} {q : Int} (h : Canonical m q) :
    read? (text (.finite false m q)) = some (.finite false m q) := by
  obtain ⟨c, more, heq, hc, -⟩ := floatText_text m q
  have htext := String.ofList_toList (s := text (.finite false m q))
  rw [← htext, heq, read?_of_isDigit hc, ← heq]
  rw [text]
  simp only [Bool.false_eq_true, if_false, String.toList_ofList]
  by_cases hm : m = 0
  · have hq : q = minExponent := h.leading.resolve_right (by omega)
    rw [if_pos hm, hm, hq]
    rfl
  · rw [if_neg hm, readDecimal?_chars, ofDecimal_shortest (Nat.pos_of_ne_zero hm) h]

end Binary64

end ClassCheck.Number
