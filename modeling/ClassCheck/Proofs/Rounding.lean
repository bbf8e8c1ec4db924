import ClassCheck.Number.Binary64
import Mathlib.Algebra.Order.Field.Power
import Mathlib.Data.Int.Log
import Mathlib.Data.Rat.Floor
import Mathlib.Tactic.FieldSimp
import Mathlib.Tactic.Linarith
import Mathlib.Tactic.NormNum
import Mathlib.Tactic.Positivity
import Mathlib.Tactic.Ring

/-!
# Rounding to the nearest value

A decimal is rounded as a quotient of naturals, but the answer depends on the number alone and
not on the quotient it is given by. What comes out is always in lowest terms for the format: the
significand has its leading bit, or the exponent is the least one. Such a value is its own
rounding.
-/

namespace ClassCheck.Number

/-! ## Whole numbers -/

/-- Rounding depends on the quotient alone. -/
theorem roundHalfEven_mul (num den : Nat) {k : Nat} (hk : 0 < k) :
    roundHalfEven (k * num) (k * den) = roundHalfEven num den := by
  have hbelow : 2 * (k * (num % den)) < k * den ↔ 2 * (num % den) < den := by
    rw [Nat.mul_left_comm, Nat.mul_lt_mul_left hk]
  have habove : k * den < 2 * (k * (num % den)) ↔ den < 2 * (num % den) := by
    rw [Nat.mul_left_comm, Nat.mul_lt_mul_left hk]
  simp only [roundHalfEven, Nat.mul_div_mul_left num den hk, Nat.mul_mod_mul_left, hbelow, habove]

/-- Equal quotients are rounded to the same whole number. -/
theorem roundHalfEven_congr {num den num' den' : Nat} (hden : 0 < den) (hden' : 0 < den')
    (h : (num : ℚ) / den = num' / den') :
    roundHalfEven num den = roundHalfEven num' den' := by
  have hcross : den' * num = den * num' := by
    rw [div_eq_div_iff (by positivity) (by positivity)] at h
    rw [Nat.mul_comm den', Nat.mul_comm den]
    exact_mod_cast h
  calc roundHalfEven num den
      = roundHalfEven (den' * num) (den' * den) := (roundHalfEven_mul num den hden').symm
    _ = roundHalfEven (den * num') (den * den') := by rw [hcross, Nat.mul_comm den' den]
    _ = roundHalfEven num' den' := roundHalfEven_mul num' den' hden

/-- A whole number is its own rounding. -/
theorem roundHalfEven_self (m : Nat) {den : Nat} (hden : 0 < den) :
    roundHalfEven (m * den) den = m := by
  simp only [roundHalfEven, Nat.mul_div_cancel m hden, Nat.mul_mod_left]
  rw [if_pos (by omega)]

/-- Rounding goes no further down than the whole part. -/
theorem le_roundHalfEven (num den : Nat) : num / den ≤ roundHalfEven num den := by
  unfold roundHalfEven
  dsimp only
  split
  · exact Nat.le_refl _
  · split
    · exact Nat.le_succ _
    · split
      · exact Nat.le_refl _
      · exact Nat.le_succ _

/-- It goes up by one at most. -/
theorem roundHalfEven_le (num den : Nat) : roundHalfEven num den ≤ num / den + 1 := by
  unfold roundHalfEven
  dsimp only
  split
  · exact Nat.le_succ _
  · split
    · exact Nat.le_refl _
    · split
      · exact Nat.le_succ _
      · exact Nat.le_refl _

/-! ## Powers -/

/-- Scaling down divides the quotient by the power of two. -/
theorem scaleDown_eq (num den : Nat) (q : Int) :
    ((scaleDown num den q).1 : ℚ) / (scaleDown num den q).2 = num / den / 2 ^ q := by
  unfold scaleDown
  by_cases hq : 0 ≤ q
  · have hpow : (2 : ℚ) ^ q.toNat = 2 ^ q := by rw [← zpow_natCast, Int.toNat_of_nonneg hq]
    rw [if_pos hq, Nat.pow_eq]
    push_cast
    rw [hpow, div_div]
  · have hpow : (2 : ℚ) ^ (-q).toNat = 2 ^ (-q) := by
      rw [← zpow_natCast, Int.toNat_of_nonneg (by omega)]
    rw [if_neg hq, Nat.pow_eq]
    push_cast
    rw [hpow, zpow_neg, div_eq_mul_inv _ ((2 : ℚ) ^ q)]
    ring

private theorem scaleDown_pos {num den : Nat} (hden : 0 < den) (q : Int) :
    0 < (scaleDown num den q).2 := by
  unfold scaleDown
  split
  · exact Nat.mul_pos hden (Nat.pow_pos (by decide))
  · exact hden

private theorem log_eq {b : Nat} (hb : 1 < b) {x : ℚ} (hx : 0 < x) {k : Int} (hle : (b : ℚ) ^ k ≤ x)
    (hlt : x < (b : ℚ) ^ (k + 1)) : Int.log b x = k := by
  have hlog := (Int.zpow_le_iff_le_log hb hx).mp hle
  have hlog' := (Int.lt_zpow_iff_log_lt hb hx).mp hlt
  omega

/-- The digits of a number tell how large it is. -/
theorem digitCount_eq {n : Nat} (hn : n ≠ 0) : digitCount n = Nat.log 10 n + 1 := by
  have hpos : 0 < digitCount n := Nat.length_toDigits_pos
  apply Nat.le_antisymm
  · rw [digitCount, Nat.length_toDigits_le_iff (by decide) (Nat.succ_pos _)]
    exact Nat.lt_pow_succ_log_self (by decide) n
  · have hlt : n < 10 ^ digitCount n :=
      (Nat.length_toDigits_le_iff (by decide) hpos).mp (Nat.le_refl _)
    have := Nat.log_lt_of_lt_pow hn hlt
    omega

namespace Binary64

/-! ## The exponent -/

/-- The exponent is the one of the leading bit, but no less than the least. -/
theorem exponentOf_eq {num den : Nat} (hnum : 0 < num) (hden : 0 < den) :
    exponentOf num den = max (Int.log 2 ((num : ℚ) / den) - 52) minExponent := by
  have hdenQ : (0 : ℚ) < den := by exact_mod_cast hden
  have hx : (0 : ℚ) < num / den := by positivity
  have hnumLow : (2 : ℚ) ^ (num.log2 : Int) ≤ num := by
    rw [zpow_natCast]
    exact_mod_cast Nat.log2_self_le hnum.ne'
  have hnumHigh : (num : ℚ) < 2 ^ ((num.log2 : Int) + 1) := by
    rw [← Nat.cast_succ, zpow_natCast]
    exact_mod_cast Nat.lt_log2_self
  have hdenLow : (2 : ℚ) ^ (den.log2 : Int) ≤ den := by
    rw [zpow_natCast]
    exact_mod_cast Nat.log2_self_le hden.ne'
  have hdenHigh : (den : ℚ) < 2 ^ ((den.log2 : Int) + 1) := by
    rw [← Nat.cast_succ, zpow_natCast]
    exact_mod_cast Nat.lt_log2_self
  unfold exponentOf
  dsimp only
  generalize hguess : (num.log2 : Int) - den.log2 = guess
  -- The guess is the logarithm or one more.
  have hlow : (2 : ℚ) ^ (guess - 1) ≤ num / den := by
    rw [le_div_iff₀ hdenQ]
    calc (2 : ℚ) ^ (guess - 1) * den
        ≤ 2 ^ (guess - 1) * 2 ^ ((den.log2 : Int) + 1) := by gcongr
      _ = 2 ^ (num.log2 : Int) := by rw [← zpow_add₀ two_ne_zero]; congr 1; omega
      _ ≤ num := hnumLow
  have hhigh : (num : ℚ) / den < 2 ^ (guess + 1) := by
    rw [div_lt_iff₀ hdenQ]
    calc (num : ℚ) < 2 ^ ((num.log2 : Int) + 1) := hnumHigh
      _ = 2 ^ (guess + 1) * 2 ^ (den.log2 : Int) := by
        rw [← zpow_add₀ two_ne_zero]; congr 1; omega
      _ ≤ 2 ^ (guess + 1) * den := by gcongr
  have hcompare : (scaleDown num den guess).1 < (scaleDown num den guess).2 ↔
      (num : ℚ) / den < 2 ^ guess := by
    have hpos : (0 : ℚ) < (scaleDown num den guess).2 := by exact_mod_cast scaleDown_pos hden guess
    rw [← Nat.cast_lt (α := ℚ), ← div_lt_one hpos, scaleDown_eq, div_lt_one (by positivity)]
  by_cases hlt : (num : ℚ) / den < 2 ^ guess
  · rw [if_pos (hcompare.mpr hlt), log_eq (by decide) hx (by exact_mod_cast hlow)
      (by rw [Int.sub_add_cancel]; exact_mod_cast hlt)]
    congr 1
    omega
  · rw [if_neg (mt hcompare.mp hlt), log_eq (by decide) hx (by exact_mod_cast not_lt.mp hlt)
      (by exact_mod_cast hhigh)]

/-- Divided by the power of two that is chosen for it, a number has a whole part of at most 53
bits, and of no less if the exponent is not the least one. -/
theorem exponentOf_bounds {num den : Nat} (hnum : 0 < num) (hden : 0 < den) :
    let scaled := scaleDown num den (exponentOf num den)
    scaled.1 / scaled.2 < 2 ^ 53 ∧
      (exponentOf num den = minExponent ∨ 2 ^ 52 ≤ scaled.1 / scaled.2) := by
  have hx : (0 : ℚ) < (num : ℚ) / den := by positivity
  have hexponent := exponentOf_eq hnum hden
  have hlow := Int.zpow_log_le_self (b := 2) (by decide) hx
  have hhigh := Int.lt_zpow_succ_log_self (b := 2) (by decide) ((num : ℚ) / den)
  generalize exponentOf num den = q at hexponent
  generalize Int.log 2 ((num : ℚ) / den) = k at hexponent hlow hhigh
  push_cast at hlow hhigh
  intro scaled
  have hpos : 0 < scaled.2 := scaleDown_pos hden q
  have hposQ : (0 : ℚ) < scaled.2 := by exact_mod_cast hpos
  have hscaled : (scaled.1 : ℚ) / scaled.2 = num / den / 2 ^ q := scaleDown_eq num den q
  refine ⟨?_, ?_⟩
  · rw [Nat.div_lt_iff_lt_mul hpos, ← Nat.cast_lt (α := ℚ)]
    push_cast
    rw [← div_lt_iff₀ hposQ, hscaled, div_lt_iff₀ (by positivity)]
    calc (num : ℚ) / den < 2 ^ (k + 1) := hhigh
      _ ≤ 2 ^ (53 + q) := zpow_le_zpow_right₀ (by norm_num) (by omega)
      _ = 2 ^ 53 * 2 ^ q := zpow_add₀ two_ne_zero 53 q
  · by_cases hmin : q = minExponent
    · exact .inl hmin
    · right
      rw [Nat.le_div_iff_mul_le hpos, ← Nat.cast_le (α := ℚ)]
      push_cast
      rw [← le_div_iff₀ hposQ, hscaled, le_div_iff₀ (by positivity)]
      calc (2 : ℚ) ^ 52 * 2 ^ q = 2 ^ (52 + q) := (zpow_add₀ two_ne_zero 52 q).symm
        _ ≤ 2 ^ k := zpow_le_zpow_right₀ (by norm_num) (by omega)
        _ ≤ num / den := hlow

/-! ## Rounding a quotient -/

/-- Rounding depends on the number and not on the quotient it is given by. -/
theorem ofRatio_congr (negative : Bool) {num den num' den' : Nat} (hden : 0 < den)
    (hden' : 0 < den') (h : (num : ℚ) / den = num' / den') :
    ofRatio negative num den = ofRatio negative num' den' := by
  have hzero : num = 0 ↔ num' = 0 := by
    have hiff : (num : ℚ) / den = 0 ↔ (num' : ℚ) / den' = 0 := by rw [h]
    simpa [hden.ne', hden'.ne'] using hiff
  by_cases hnum : num = 0
  · rw [ofRatio, ofRatio, if_pos hnum, if_pos (hzero.mp hnum)]
  · have hnum' := mt hzero.mpr hnum
    have hexponent : exponentOf num den = exponentOf num' den' := by
      rw [exponentOf_eq (Nat.pos_of_ne_zero hnum) hden,
        exponentOf_eq (Nat.pos_of_ne_zero hnum') hden', h]
    have hround : roundHalfEven (scaleDown num den (exponentOf num' den')).1
        (scaleDown num den (exponentOf num' den')).2 =
        roundHalfEven (scaleDown num' den' (exponentOf num' den')).1
        (scaleDown num' den' (exponentOf num' den')).2 :=
      roundHalfEven_congr (scaleDown_pos hden _) (scaleDown_pos hden' _)
        (by rw [scaleDown_eq, scaleDown_eq, h])
    unfold ofRatio
    dsimp only
    rw [if_neg hnum, if_neg hnum', hexponent, hround]

/-- A significand and an exponent of the format: the leading bit is set unless the exponent is the
least one. -/
structure Canonical (m : Nat) (q : Int) : Prop where
  lt : m < 2 ^ 53
  minExponent_le : minExponent ≤ q
  le_maxExponent : q ≤ maxExponent
  leading : q = minExponent ∨ 2 ^ 52 ≤ m

private theorem canonical_zero : Canonical 0 minExponent :=
  ⟨by decide, by decide, by decide, .inl rfl⟩

/-- What a quotient is rounded to is in lowest terms, with its sign. -/
theorem canonical_of_ofRatio {negative s : Bool} {num den m : Nat} {q : Int} (hden : 0 < den)
    (h : ofRatio negative num den = .finite s m q) : s = negative ∧ Canonical m q := by
  unfold ofRatio at h
  by_cases hnum : num = 0
  · rw [if_pos hnum] at h
    cases h
    exact ⟨rfl, canonical_zero⟩
  · rw [if_neg hnum] at h
    dsimp only at h
    obtain ⟨hhigh, hlow⟩ := exponentOf_bounds (Nat.pos_of_ne_zero hnum) hden
    have hexponent := exponentOf_eq (Nat.pos_of_ne_zero hnum) hden
    have hfloor := le_roundHalfEven (scaleDown num den (exponentOf num den)).1
      (scaleDown num den (exponentOf num den)).2
    have hceil := roundHalfEven_le (scaleDown num den (exponentOf num den)).1
      (scaleDown num den (exponentOf num den)).2
    generalize roundHalfEven _ _ = rounded at h hfloor hceil
    by_cases hcarry : rounded = Nat.pow 2 53
    · rw [if_pos hcarry] at h
      dsimp only at h
      split at h
      · cases h
      · cases h
        exact ⟨rfl, by decide, by omega, by omega, .inr (by decide)⟩
    · rw [if_neg hcarry] at h
      dsimp only at h
      rw [Nat.pow_eq] at hcarry
      split at h
      · cases h
      · cases h
        exact ⟨rfl, by omega, by omega, by omega, hlow.imp_right fun hle => by omega⟩

/-- A value of the format is its own rounding. -/
theorem ofRatio_of_canonical (negative : Bool) {m num den : Nat} {q : Int} (hm : 0 < m)
    (h : Canonical m q) (hden : 0 < den) (hvalue : (num : ℚ) / den = m * 2 ^ q) :
    ofRatio negative num den = .finite negative m q := by
  have hnum : num ≠ 0 := by
    rintro rfl
    rw [Nat.cast_zero, zero_div] at hvalue
    have : (0 : ℚ) < m * 2 ^ q := by positivity
    linarith
  have hexponent : exponentOf num den = q := by
    have hpos : (0 : ℚ) < m * 2 ^ q := by positivity
    have hlt : (m : ℚ) * 2 ^ q < 2 ^ (53 + q) := by
      rw [zpow_add₀ two_ne_zero]
      gcongr
      exact_mod_cast h.lt
    have hlog := (Int.lt_zpow_iff_log_lt (b := 2) (by decide) hpos).mp (by exact_mod_cast hlt)
    have hmin := h.minExponent_le
    rw [exponentOf_eq (Nat.pos_of_ne_zero hnum) hden, hvalue]
    obtain hq | hle := h.leading
    · omega
    · have hge : (2 : ℚ) ^ (52 + q) ≤ m * 2 ^ q := by
        rw [zpow_add₀ two_ne_zero]
        gcongr
        exact_mod_cast hle
      have hlog' := (Int.zpow_le_iff_le_log (b := 2) (by decide) hpos).mp (by exact_mod_cast hge)
      omega
  have hround : roundHalfEven (scaleDown num den q).1 (scaleDown num den q).2 = m := by
    have hquotient : ((scaleDown num den q).1 : ℚ) / (scaleDown num den q).2 =
        ((m * 1 : Nat) : ℚ) / (1 : Nat) := by
      rw [scaleDown_eq, hvalue]
      push_cast
      field_simp
    rw [roundHalfEven_congr (scaleDown_pos hden q) Nat.one_pos hquotient]
    exact roundHalfEven_self m Nat.one_pos
  have hcarry : m ≠ Nat.pow 2 53 := h.lt.ne
  have hmax := h.le_maxExponent
  unfold ofRatio
  rw [if_neg hnum, hexponent]
  dsimp only
  rw [hround, if_neg hcarry]
  dsimp only
  rw [if_neg (by omega)]

/-! ## Rounding a decimal -/

/-- A decimal is rounded as a quotient of its value, unless its first digit stands so far from the
point that the answer is clear. -/
theorem ofDecimal_eq (negative : Bool) {digits : Nat} (hdigits : digits ≠ 0) (exponent : Int) :
    ∃ num den : Nat, 0 < den ∧ (num : ℚ) / den = digits * 10 ^ exponent ∧
      ofDecimal negative digits exponent =
        if Int.log 10 ((digits : ℚ) * 10 ^ exponent) + 1 < -400 then zero negative
        else if 400 < Int.log 10 ((digits : ℚ) * 10 ^ exponent) + 1 then .infinite negative
        else ofRatio negative num den := by
  have hleading : exponent + digitCount digits =
      Int.log 10 ((digits : ℚ) * 10 ^ exponent) + 1 := by
    have hlow : (10 : ℚ) ^ Nat.log 10 digits ≤ digits := by
      exact_mod_cast Nat.pow_log_le_self 10 hdigits
    have hhigh : (digits : ℚ) < 10 ^ (Nat.log 10 digits + 1) := by
      exact_mod_cast Nat.lt_pow_succ_log_self (by decide) digits
    have hten : (10 : ℚ) ≠ 0 := by norm_num
    rw [digitCount_eq hdigits, log_eq (k := Nat.log 10 digits + exponent) (by decide)]
    · push_cast
      omega
    · positivity
    · push_cast
      rw [zpow_add₀ hten, zpow_natCast]
      gcongr
    · push_cast
      rw [Int.add_right_comm, zpow_add₀ hten, ← Nat.cast_succ, zpow_natCast]
      gcongr
  unfold ofDecimal
  dsimp only
  simp only [hdigits, false_or, hleading]
  by_cases hexponent : 0 ≤ exponent
  · refine ⟨digits * Nat.pow 10 exponent.toNat, 1, Nat.one_pos, ?_, by rw [if_pos hexponent]⟩
    rw [Nat.pow_eq]
    push_cast
    rw [div_one, ← zpow_natCast, Int.toNat_of_nonneg hexponent]
  · refine ⟨digits, Nat.pow 10 (-exponent).toNat, Nat.pow_pos (by decide), ?_,
      by rw [if_neg hexponent]⟩
    rw [Nat.pow_eq]
    push_cast
    rw [← zpow_natCast, Int.toNat_of_nonneg (by omega), zpow_neg, div_inv_eq_mul]

/-- Decimals of one value are rounded alike. -/
theorem ofDecimal_congr (negative : Bool) {digits digits' : Nat} {exponent exponent' : Int}
    (h : (digits : ℚ) * 10 ^ exponent = digits' * 10 ^ exponent') :
    ofDecimal negative digits exponent = ofDecimal negative digits' exponent' := by
  have hzero : digits = 0 ↔ digits' = 0 := by
    have hiff : (digits : ℚ) * 10 ^ exponent = 0 ↔ (digits' : ℚ) * 10 ^ exponent' = 0 := by rw [h]
    simpa [zpow_ne_zero] using hiff
  by_cases hdigits : digits = 0
  · rw [ofDecimal, ofDecimal, if_pos (.inl hdigits), if_pos (.inl (hzero.mp hdigits))]
  · obtain ⟨num, den, hden, hvalue, heq⟩ := ofDecimal_eq negative hdigits exponent
    obtain ⟨num', den', hden', hvalue', heq'⟩ :=
      ofDecimal_eq negative (mt hzero.mpr hdigits) exponent'
    rw [heq, heq', h, ofRatio_congr negative hden hden' (by rw [hvalue, hvalue', h])]

/-- What a decimal is rounded to is in lowest terms, with its sign. -/
theorem canonical_of_ofDecimal {negative s : Bool} {digits m : Nat} {exponent q : Int}
    (h : ofDecimal negative digits exponent = .finite s m q) : s = negative ∧ Canonical m q := by
  by_cases hdigits : digits = 0
  · rw [ofDecimal, if_pos (.inl hdigits)] at h
    cases h
    exact ⟨rfl, canonical_zero⟩
  · obtain ⟨num, den, hden, -, heq⟩ := ofDecimal_eq negative hdigits exponent
    rw [heq] at h
    split at h
    · cases h
      exact ⟨rfl, canonical_zero⟩
    · split at h
      · cases h
      · exact canonical_of_ofRatio hden h

/-- A decimal with a value of the format is read as that value. -/
theorem ofDecimal_of_canonical (negative : Bool) {m digits : Nat} {q exponent : Int} (hm : 0 < m)
    (h : Canonical m q) (hvalue : (digits : ℚ) * 10 ^ exponent = m * 2 ^ q) :
    ofDecimal negative digits exponent = .finite negative m q := by
  have hpos : (0 : ℚ) < m * 2 ^ q := by positivity
  have hdigits : digits ≠ 0 := by
    rintro rfl
    rw [Nat.cast_zero, zero_mul] at hvalue
    linarith
  have hpow : (2 : ℚ) ^ (1200 : Int) ≤ 10 ^ (400 : Int) := by
    calc (2 : ℚ) ^ (1200 : Int) = (2 ^ (3 : Int)) ^ (400 : Int) := zpow_mul 2 3 400
      _ ≤ 10 ^ (400 : Int) := zpow_le_zpow_left₀ (by decide) (by norm_num) (by norm_num)
  have hlow : (10 : ℚ) ^ (-400 : Int) ≤ m * 2 ^ q := by
    calc (10 : ℚ) ^ (-400 : Int) = (10 ^ (400 : Int))⁻¹ := zpow_neg 10 400
      _ ≤ (2 ^ (1200 : Int))⁻¹ := inv_anti₀ (by positivity) hpow
      _ = 2 ^ (-1200 : Int) := (zpow_neg 2 1200).symm
      _ ≤ 2 ^ q := zpow_le_zpow_right₀ (by norm_num) (Int.le_trans (by decide) h.minExponent_le)
      _ ≤ m * 2 ^ q := le_mul_of_one_le_left (by positivity) (by exact_mod_cast hm)
  have hhigh : (m : ℚ) * 2 ^ q < 10 ^ (400 : Int) := by
    have hmax : q ≤ 971 := h.le_maxExponent
    calc (m : ℚ) * 2 ^ q < 2 ^ 53 * 2 ^ q := by gcongr; exact_mod_cast h.lt
      _ = 2 ^ (53 + q) := (zpow_add₀ two_ne_zero 53 q).symm
      _ ≤ 2 ^ (1200 : Int) := zpow_le_zpow_right₀ (by norm_num) (by omega)
      _ ≤ 10 ^ (400 : Int) := hpow
  have hlogLow := (Int.zpow_le_iff_le_log (b := 10) (by decide) hpos).mp hlow
  have hlogHigh := (Int.lt_zpow_iff_log_lt (b := 10) (by decide) hpos).mp hhigh
  obtain ⟨num, den, hden, hquotient, heq⟩ := ofDecimal_eq negative hdigits exponent
  rw [heq, hvalue, if_neg (by omega), if_neg (by omega)]
  exact ofRatio_of_canonical negative hm h hden (hquotient.trans hvalue)

end Binary64

end ClassCheck.Number
