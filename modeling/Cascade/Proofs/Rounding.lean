import Cascade.Decimal
import Mathlib

/-!
# Rounding to 53 binary digits

Arithmetic on floating-point numbers shifts a significand to the exponent of its last place and
rounds there, and `IsRounded` says what comes of it: no significand of 53 binary digits with any
exponent is nearer, and of two that are as near it is the even one. This holds of integers
(`round_isRounded`), of products (`mul_isRounded`) and of quotients (`div_isRounded`).

Two bits behind a significand are enough to round it. What they say of the exact number
(`Locates`) is kept by shifts, and is all that rounding needs (`Locates.isNearestInt`).
-/

namespace Cascade.Rounding

open Float.Model Float.Model.UnpackedFloat

/-! ## Integers -/

/-- No integer is nearer, and of two that are as near it is the even one. -/
structure IsNearestInt (n : ℕ) (q : ℚ) : Prop where
  near : |(n : ℚ) - q| ≤ 1 / 2
  even : |(n : ℚ) - q| = 1 / 2 → Even n

namespace IsNearestInt

variable {n : ℕ} {q : ℚ}

theorem of_lt (h : |(n : ℚ) - q| < 1 / 2) : IsNearestInt n q := ⟨h.le, fun heq => absurd heq h.ne⟩

/-- Any other integer is at least half a unit away. -/
theorem half_le (h : IsNearestInt n q) {j : ℤ} (hj : j ≠ n) : 1 / 2 ≤ |(j : ℚ) - q| := by
  have hone : (1 : ℚ) ≤ |(j : ℚ) - n| := by
    have hint : 1 ≤ |j - (n : ℤ)| := Int.one_le_abs (sub_ne_zero.mpr hj)
    exact_mod_cast hint
  have htriangle : |(j : ℚ) - n| ≤ |(j : ℚ) - q| + |(n : ℚ) - q| := by
    rw [abs_sub_comm (n : ℚ) q]
    exact abs_sub_le _ _ _
  linarith [h.near]

theorem le (h : IsNearestInt n q) (j : ℤ) : |(n : ℚ) - q| ≤ |(j : ℚ) - q| := by
  by_cases hj : j = n
  · rw [hj, Int.cast_natCast]
  · exact h.near.trans (h.half_le hj)

theorem even_of_tie (h : IsNearestInt n q) {j : ℤ} (hj : j ≠ n)
    (htie : |(j : ℚ) - q| = |(n : ℚ) - q|) : Even n :=
  h.even (h.near.antisymm (htie ▸ h.half_le hj))

/-- Below an even bound the nearest integer is below it too, unless half a unit is left. -/
theorem lt_iff (h : IsNearestInt n q) {k : ℕ} (hk : Even k) : n < k ↔ q < k - 1 / 2 := by
  have hnear := abs_le.mp h.near
  constructor
  · intro hlt
    have hsucc : (n : ℚ) + 1 ≤ k := by exact_mod_cast hlt
    refine lt_of_le_of_ne (by linarith) fun hq => ?_
    have hpred : (n : ℚ) + 1 = k := by linarith
    have heven : Even n := h.even (by rw [hq, ← hpred, abs_of_neg] <;> linarith)
    have hn : n + 1 = k := by exact_mod_cast hpred
    exact Nat.not_even_iff_odd.mpr heven.add_one (hn ▸ hk)
  · intro hlt
    have hn : (n : ℚ) < k := by linarith
    exact_mod_cast hn

theorem le_of_cast_le (h : IsNearestInt n q) {k : ℕ} (hk : (k : ℚ) ≤ q) : k ≤ n := by
  have hn : (k : ℚ) < n + 1 := by linarith [abs_le.mp h.near]
  exact Nat.lt_succ_iff.mp (by exact_mod_cast hn)

theorem le_of_lt_cast (h : IsNearestInt n q) {k : ℕ} (hk : q < k) : n ≤ k := by
  have hn : (n : ℚ) < k + 1 := by linarith [abs_le.mp h.near]
  exact Nat.lt_succ_iff.mp (by exact_mod_cast hn)

end IsNearestInt

/-! ## Significands with two more bits -/

/-- The number that a significand and the bit behind it stand for. -/
def low (em : ExtendedMantissa) : ℚ := em.mantissa + if em.roundBit then 1 / 2 else 0

/-- `em` stands for `q` or, if it is sticky, for what is below `q` by less than half a unit. -/
def Locates (em : ExtendedMantissa) (q : ℚ) : Prop :=
  if em.stickyBit then low em < q ∧ q < low em + 1 / 2 else q = low em

namespace Locates

variable {em : ExtendedMantissa} {q : ℚ}

theorem low_le (h : Locates em q) : low em ≤ q := by
  unfold Locates at h
  split at h
  · exact h.1.le
  · exact h.ge

theorem lt_low (h : Locates em q) : q < low em + 1 / 2 := by
  unfold Locates at h
  split at h
  · exact h.2
  · linarith

theorem mantissa_le (h : Locates em q) : (em.mantissa : ℚ) ≤ q := by
  refine le_trans ?_ h.low_le
  unfold low
  split <;> norm_num

theorem lt_mantissa (h : Locates em q) : q < em.mantissa + 1 := by
  refine h.lt_low.trans_le ?_
  unfold low
  split <;> linarith

theorem isNearestInt (h : Locates em q) : IsNearestInt em.roundedMantissa q := by
  obtain ⟨m, roundBit, stickyBit⟩ := em
  cases roundBit <;> cases stickyBit <;>
    simp only [Locates, low, Bool.false_eq_true, if_true, if_false, add_zero] at h
  case false.false =>
      refine .of_lt ?_
      show |(m : ℚ) - q| < 1 / 2
      rw [h, sub_self, abs_zero]
      norm_num
  case false.true =>
      refine .of_lt ?_
      show |(m : ℚ) - q| < 1 / 2
      exact abs_lt.mpr ⟨by linarith, by linarith⟩
  case true.true =>
      refine .of_lt ?_
      show |((m + 1 : ℕ) : ℚ) - q| < 1 / 2
      rw [Nat.cast_succ]
      exact abs_lt.mpr ⟨by linarith, by linarith⟩
  case true.false =>
      -- half way between two integers, of which `m + m % 2` is the even one
      refine ⟨?_, fun _ => ?_⟩
      · show |((m + m % 2 : ℕ) : ℚ) - q| ≤ 1 / 2
        rcases Nat.mod_two_eq_zero_or_one m with hm | hm
        all_goals
          rw [h, hm, abs_le]
          push_cast
          constructor <;> linarith
      · show Even (m + m % 2)
        rw [Nat.even_iff]
        omega

end Locates

theorem low_shiftRightOne (em : ExtendedMantissa) : low em.shiftRightOne = em.mantissa / 2 := by
  have hsplit : (em.mantissa : ℚ) = 2 * (em.mantissa / 2 : ℕ) + (em.mantissa % 2 : ℕ) := by
    exact_mod_cast (Nat.div_add_mod em.mantissa 2).symm
  show ((em.mantissa / 2 : ℕ) : ℚ) + (if (em.mantissa % 2 != 0) = true then 1 / 2 else 0) = _
  rw [hsplit]
  rcases Nat.mod_two_eq_zero_or_one em.mantissa with hm | hm
  · rw [hm, if_neg (by decide)]
    push_cast
    ring
  · rw [hm, if_pos (by decide)]
    push_cast
    ring

/-- The bits that are shifted out are kept in mind. -/
theorem Locates.shiftRightOne {em : ExtendedMantissa} {q : ℚ} (h : Locates em q) :
    Locates em.shiftRightOne (q / 2) := by
  obtain ⟨m, roundBit, stickyBit⟩ := em
  unfold Locates
  rw [low_shiftRightOne]
  have hlow := h.low_le
  have hlt := h.lt_low
  cases roundBit <;> cases stickyBit <;>
    simp only [Locates, low, ExtendedMantissa.shiftRightOne, Bool.or_false, Bool.or_true,
      Bool.false_eq_true, if_true, if_false, add_zero] at h hlow hlt ⊢
  case false.false => rw [h]
  all_goals constructor <;> linarith

theorem Locates.shiftRight {em : ExtendedMantissa} {q : ℚ} (h : Locates em q) (n : ℕ) :
    Locates (em >>> n) (q / 2 ^ n) := by
  show Locates (n.repeat ExtendedMantissa.shiftRightOne em) _
  induction n with
  | zero => rwa [pow_zero, div_one]
  | succ n ih =>
      rw [pow_succ, ← div_div]
      exact ih.shiftRightOne

/-! ## Numbers with 53 binary digits -/

/-- Half a unit of the last place above the greatest finite number. -/
def limit : ℚ := (2 ^ 53 - 1 / 2) * 2 ^ (971 : ℤ)

theorem le_limit : 2 ^ (1023 : ℤ) ≤ limit := by
  rw [limit, show (1023 : ℤ) = 52 + 971 from rfl, zpow_add₀ two_ne_zero]
  exact mul_le_mul_of_nonneg_right (by norm_num) (zpow_pos two_pos _).le

theorem limit_lt : limit < 2 ^ (1024 : ℤ) := by
  rw [limit, show (1024 : ℤ) = 53 + 971 from rfl, zpow_add₀ two_ne_zero]
  exact mul_lt_mul_of_pos_right (by norm_num) (zpow_pos two_pos _)

/-- 53 binary digits of which the first is not zero, unless the exponent is the least one. -/
structure IsCanonical (m : ℕ) (e : ℤ) : Prop where
  lt : m < 2 ^ 53
  le : -1074 ≤ e
  normal : -1074 < e → 2 ^ 52 ≤ m

namespace IsCanonical

variable {m n : ℕ} {e f : ℤ}

theorem exponent_eq_of_zero (h : IsCanonical 0 e) : e = -1074 := by
  by_contra hne
  exact absurd (h.normal (lt_of_le_of_ne h.le (Ne.symm hne))) (by norm_num)

theorem scaled_lt (h : IsCanonical m e) (h' : IsCanonical n f) (hlt : e < f) :
    (m * 2 ^ e : ℚ) < n * 2 ^ f := by
  have hm : (m : ℚ) < 2 ^ 53 := by exact_mod_cast h.lt
  have hn : (2 : ℚ) ^ 52 ≤ n := by exact_mod_cast h'.normal (h.le.trans_lt hlt)
  calc (m * 2 ^ e : ℚ) < 2 ^ 53 * 2 ^ e := mul_lt_mul_of_pos_right hm (zpow_pos two_pos _)
    _ = 2 ^ 52 * 2 ^ (e + 1) := by rw [zpow_add_one₀ two_ne_zero]; ring
    _ ≤ n * 2 ^ f := mul_le_mul hn (zpow_le_zpow_right₀ one_le_two hlt) (by positivity)
        (by positivity)

/-- The digits and the exponent are found again. -/
theorem inj (h : IsCanonical m e) (h' : IsCanonical n f) (heq : (m * 2 ^ e : ℚ) = n * 2 ^ f) :
    m = n ∧ e = f := by
  obtain hlt | rfl | hgt := lt_trichotomy e f
  · exact absurd heq (h.scaled_lt h' hlt).ne
  · exact ⟨by exact_mod_cast mul_right_cancel₀ (zpow_pos two_pos e).ne' heq, rfl⟩
  · exact absurd heq (h'.scaled_lt h hgt).ne'

/-- What is greater is so by a unit of the last place. -/
theorem succ_le (h : IsCanonical m e) (h' : IsCanonical n f) (hlt : (m * 2 ^ e : ℚ) < n * 2 ^ f) :
    ((m + 1 : ℕ) * 2 ^ e : ℚ) ≤ n * 2 ^ f := by
  have hpos : (0 : ℚ) < 2 ^ e := zpow_pos two_pos _
  have hef : e ≤ f := not_lt.mp fun hfe => (h'.scaled_lt h hfe).not_gt hlt
  obtain ⟨k, rfl⟩ : ∃ k : ℕ, f = k + e := ⟨(f - e).toNat, by omega⟩
  have hmultiple : (n * 2 ^ (k + e) : ℚ) = (n * 2 ^ k : ℕ) * 2 ^ e := by
    rw [zpow_add₀ two_ne_zero, zpow_natCast]
    push_cast
    ring
  rw [hmultiple] at hlt ⊢
  have hm : m < n * 2 ^ k := by exact_mod_cast lt_of_mul_lt_mul_right hlt hpos.le
  exact mul_le_mul_of_nonneg_right (by exact_mod_cast hm) hpos.le

end IsCanonical

/-- `r` with 53 binary digits, or fewer if the exponent would be below the least one. -/
structure IsRounded (r : ℚ) (m : ℕ) (e : ℤ) : Prop extends IsCanonical m e where
  near : ∀ (k : ℕ) (f : ℤ), k < 2 ^ 53 → -1074 ≤ f →
    |(m : ℚ) * 2 ^ e - r| ≤ |(k : ℚ) * 2 ^ f - r|
  even : ∀ (k : ℕ) (f : ℤ), k < 2 ^ 53 → -1074 ≤ f → (k : ℚ) * 2 ^ f ≠ m * 2 ^ e →
    |(k : ℚ) * 2 ^ f - r| = |(m : ℚ) * 2 ^ e - r| → Even m
  fits : e ≤ 971 ↔ r < limit

/-- The exponent of the last of the binary digits that `r` is rounded to. -/
structure IsScale (t : ℤ) (r : ℚ) : Prop where
  le : -1074 ≤ t
  lower : -1074 < t → 2 ^ (t + 52) ≤ r
  upper : r < 2 ^ (t + 53)

theorem abs_scaled (x r : ℚ) (t : ℤ) : |x * 2 ^ t - r| = |x - r / 2 ^ t| * 2 ^ t := by
  have hpos : (0 : ℚ) < 2 ^ t := by positivity
  nth_rewrite 3 [← abs_of_pos hpos]
  rw [← abs_mul, sub_mul, div_mul_cancel₀ r hpos.ne']

/-- A multiple of a greater power of two is greater. -/
theorem scaled_le {x : ℚ} {s t : ℤ} (hx : 0 ≤ x) (h : s ≤ t) : x * 2 ^ s ≤ x * 2 ^ t :=
  mul_le_mul_of_nonneg_left (zpow_le_zpow_right₀ one_le_two h) hx

namespace IsScale

variable {t f : ℤ} {r : ℚ} {n k : ℕ}

/-- A number with 53 binary digits is a multiple of the last place of `r`, or is too small to be
near. -/
theorem multiple_or_far (h : IsScale t r) (hk : k < 2 ^ 53) (hf : -1074 ≤ f) :
    (∃ j : ℤ, (k : ℚ) * 2 ^ f = j * 2 ^ t) ∨
      |((2 ^ 52 : ℤ) : ℚ) * 2 ^ t - r| < |(k : ℚ) * 2 ^ f - r| := by
  rcases le_or_gt t f with htf | hft
  · left
    refine ⟨k * 2 ^ (f - t).toNat, ?_⟩
    push_cast
    rw [mul_assoc, ← zpow_natCast, ← zpow_add₀ two_ne_zero, Int.toNat_of_nonneg (by omega)]
    congr 2
    omega
  · right
    have hlower := h.lower (by omega)
    have hpower : ((2 ^ 52 : ℤ) : ℚ) * 2 ^ t = 2 ^ (t + 52) := by
      rw [zpow_add₀ two_ne_zero, mul_comm]
      norm_num
    have hsmall : (k : ℚ) * 2 ^ f < 2 ^ (t + 52) := by
      calc (k : ℚ) * 2 ^ f < 2 ^ 53 * 2 ^ f := by
            have : (k : ℚ) < 2 ^ 53 := by exact_mod_cast hk
            gcongr
        _ = 2 ^ (f + 53) := by rw [zpow_add₀ two_ne_zero, mul_comm]; norm_num
        _ ≤ 2 ^ (t + 52) := zpow_le_zpow_right₀ one_le_two (by omega)
    rw [hpower, abs_of_nonpos (by linarith), abs_of_nonpos (by linarith)]
    linarith

theorem near (h : IsScale t r) (hn : IsNearestInt n (r / 2 ^ t)) (hk : k < 2 ^ 53)
    (hf : -1074 ≤ f) : |(n : ℚ) * 2 ^ t - r| ≤ |(k : ℚ) * 2 ^ f - r| := by
  have hmultiple (j : ℤ) : |(n : ℚ) * 2 ^ t - r| ≤ |(j : ℚ) * 2 ^ t - r| := by
    rw [abs_scaled, abs_scaled]
    exact mul_le_mul_of_nonneg_right (hn.le j) (by positivity)
  rcases h.multiple_or_far hk hf with ⟨j, hj⟩ | hfar
  · rw [hj]
    exact hmultiple j
  · exact (hmultiple _).trans hfar.le

theorem even (h : IsScale t r) (hn : IsNearestInt n (r / 2 ^ t)) (hk : k < 2 ^ 53)
    (hf : -1074 ≤ f) (hne : (k : ℚ) * 2 ^ f ≠ n * 2 ^ t)
    (htie : |(k : ℚ) * 2 ^ f - r| = |(n : ℚ) * 2 ^ t - r|) : Even n := by
  have hpos : (0 : ℚ) < 2 ^ t := by positivity
  rcases h.multiple_or_far hk hf with ⟨j, hj⟩ | hfar
  · rw [hj, abs_scaled, abs_scaled] at htie
    refine hn.even_of_tie (j := j) ?_ (mul_right_cancel₀ hpos.ne' htie)
    rintro rfl
    exact hne (by rw [hj, Int.cast_natCast])
  · refine absurd ?_ (htie ▸ hfar).not_ge
    rw [abs_scaled, abs_scaled]
    exact mul_le_mul_of_nonneg_right (hn.le _) hpos.le

theorem le_significand (h : IsScale t r) (hn : IsNearestInt n (r / 2 ^ t)) (ht : -1074 < t) :
    2 ^ 52 ≤ n := by
  refine hn.le_of_cast_le ?_
  rw [le_div_iff₀ (by positivity)]
  calc ((2 ^ 52 : ℕ) : ℚ) * 2 ^ t = 2 ^ (t + 52) := by
        rw [zpow_add₀ two_ne_zero, mul_comm]
        norm_num
    _ ≤ r := h.lower ht

theorem significand_le (h : IsScale t r) (hn : IsNearestInt n (r / 2 ^ t)) : n ≤ 2 ^ 53 := by
  refine hn.le_of_lt_cast ?_
  rw [div_lt_iff₀ (by positivity)]
  calc r < 2 ^ (t + 53) := h.upper
    _ = ((2 ^ 53 : ℕ) : ℚ) * 2 ^ t := by
        rw [zpow_add₀ two_ne_zero, mul_comm]
        norm_num

theorem significand_lt_iff (hn : IsNearestInt n (r / 2 ^ t)) :
    n < 2 ^ 53 ↔ r < (2 ^ 53 - 1 / 2) * 2 ^ t := by
  rw [hn.lt_iff (by decide), div_lt_iff₀ (by positivity)]
  norm_num

theorem isRounded (h : IsScale t r) (hn : IsNearestInt n (r / 2 ^ t)) (hlt : n < 2 ^ 53) :
    IsRounded r n t where
  lt := hlt
  le := h.le
  normal := h.le_significand hn
  near _ _ := h.near hn
  even _ _ := h.even hn
  fits := by
    have hbelow := (significand_lt_iff hn).mp hlt
    constructor
    · intro ht
      exact hbelow.trans_le (scaled_le (by norm_num) ht)
    · intro hr
      by_contra ht
      have hlower := h.lower (by omega)
      have hpower : (2 : ℚ) ^ (1024 : ℤ) ≤ 2 ^ (t + 52) := zpow_le_zpow_right₀ one_le_two (by omega)
      linarith [limit_lt]

/-- Rounded up to a power of two, it has one digit more, and the last is zero. -/
theorem isRounded_carry (h : IsScale t r) (hn : IsNearestInt (2 ^ 53) (r / 2 ^ t)) :
    IsRounded r (2 ^ 52) (t + 1) := by
  have hvalue : ((2 ^ 52 : ℕ) : ℚ) * 2 ^ (t + 1) = (2 ^ 53 : ℕ) * 2 ^ t := by
    rw [zpow_add_one₀ two_ne_zero]
    push_cast
    ring
  have hcanonical : IsCanonical (2 ^ 52) (t + 1) :=
    ⟨by norm_num, by linarith [h.le], fun _ => le_rfl⟩
  refine ⟨hcanonical, ?_, fun _ _ _ _ _ _ => by decide, ?_⟩
  · rw [hvalue]
    exact fun _ _ => h.near hn
  · have habove := (not_congr (significand_lt_iff hn)).mp (lt_irrefl _)
    constructor
    · intro ht
      calc r < 2 ^ (t + 53) := h.upper
        _ ≤ 2 ^ (1023 : ℤ) := zpow_le_zpow_right₀ one_le_two (by omega)
        _ ≤ limit := le_limit
    · intro hr
      by_contra ht
      exact habove (hr.trans_le (scaled_le (by norm_num) (by omega)))

end IsScale

/-- What is no more than half of the least positive number is rounded to zero. -/
theorem isRounded_zero {r : ℚ} (hr : 0 ≤ r) (h : r ≤ 2 ^ (-1075 : ℤ)) : IsRounded r 0 (-1074) := by
  have hpos : (0 : ℚ) < 2 ^ (-1074 : ℤ) := zpow_pos two_pos _
  have hhalf : r / 2 ^ (-1074 : ℤ) ≤ 1 / 2 := by
    rw [div_le_iff₀ hpos]
    calc r ≤ 2 ^ (-1 + -1074 : ℤ) := h
      _ = 1 / 2 * 2 ^ (-1074 : ℤ) := by rw [zpow_add₀ two_ne_zero]; norm_num
  have hscale : IsScale (-1074) r := by
    refine ⟨le_rfl, fun hlt => absurd hlt (lt_irrefl _), ?_⟩
    exact h.trans_lt (zpow_lt_zpow_right₀ one_lt_two (by norm_num))
  refine hscale.isRounded ⟨?_, fun _ => Even.zero⟩ (by norm_num)
  rw [Nat.cast_zero, zero_sub, abs_neg, abs_of_nonneg (div_nonneg hr hpos.le)]
  exact hhalf

/-! ## Rounding -/

/-- The exponent that a significand and its exponent are shifted to. -/
def target (m : ℕ) (e : ℤ) : ℤ := max (m.log2 + e - 52) (-1074)

theorem targetExponent_eq (m : ℕ) (e : ℤ) :
    Format.binary64.targetExponent (totalExponent m e) = target m e := by
  simp only [Format.targetExponent, totalExponent, Format.mantissaBits, Format.minExponent, target]
  norm_num
  omega

theorem shiftToTargetExponent_eq (m : ℕ) (e : ℤ) (a : Accuracy) :
    shiftToTargetExponent .binary64 m e a =
      (ExtendedMantissa.ofMantissaAndAccuracy m a >>> (target m e - e).toNat,
        e + (target m e - e).toNat) := by
  unfold shiftToTargetExponent
  rw [targetExponent_eq]
  rfl

theorem isScale_target {m : ℕ} {e : ℤ} {r : ℚ} (hlow : m * 2 ^ e ≤ r) (hhigh : r < (m + 1) * 2 ^ e)
    (he : e ≤ target m e) : IsScale (target m e) r where
  le := le_max_right _ _
  lower ht := by
    have htarget : target m e = m.log2 + e - 52 := by
      unfold target at ht ⊢
      omega
    have hm : m ≠ 0 := by
      rintro rfl
      simp only [Nat.log2_zero] at htarget
      omega
    calc (2 : ℚ) ^ (target m e + 52) = 2 ^ m.log2 * 2 ^ e := by
          rw [← zpow_natCast, ← zpow_add₀ two_ne_zero, htarget]
          congr 1
          omega
      _ ≤ m * 2 ^ e := by
          refine mul_le_mul_of_nonneg_right ?_ (zpow_pos two_pos _).le
          exact_mod_cast Nat.log2_self_le hm
      _ ≤ r := hlow
  upper := by
    calc r < (m + 1) * 2 ^ e := hhigh
      _ ≤ 2 ^ (m.log2 + 1) * 2 ^ e := by
          refine mul_le_mul_of_nonneg_right ?_ (zpow_pos two_pos _).le
          exact_mod_cast Nat.lt_log2_self
      _ = 2 ^ (m.log2 + 1 + e) := by
          rw [← zpow_natCast, ← zpow_add₀ two_ne_zero]
          norm_num
      _ ≤ 2 ^ (target m e + 53) := by
          refine zpow_le_zpow_right₀ one_le_two ?_
          unfold target
          omega

/-- A significand that has become too long by rounding loses its last digit, any other is left as
it is. -/
theorem shiftToTargetExponent_of_lt {n : ℕ} {t : ℤ} (hn : n < 2 ^ 53) (ht : -1074 ≤ t) :
    shiftToTargetExponent .binary64 n t .exact = (⟨n, false, false⟩, t) := by
  have hlog : n.log2 ≤ 52 := by
    by_cases hzero : n = 0
    · simp [hzero]
    · exact Nat.lt_succ_iff.mp ((Nat.log2_lt hzero).mpr hn)
  have hshift : (target n t - t).toNat = 0 := by
    unfold target
    omega
  rw [shiftToTargetExponent_eq, hshift, Nat.cast_zero, add_zero]
  rfl

theorem shiftToTargetExponent_carry {t : ℤ} (ht : -1074 ≤ t) :
    shiftToTargetExponent .binary64 (2 ^ 53) t .exact = (⟨2 ^ 52, false, false⟩, t + 1) := by
  have hshift : (target (2 ^ 53) t - t).toNat = 1 := by
    rw [target, Nat.log2_two_pow]
    omega
  rw [shiftToTargetExponent_eq, hshift]
  rfl

/-- A significand with its exponent and sign. -/
def unpacked (s : Sign) (m : ℕ) (e : ℤ) : UnpackedFloat :=
  if h : m = 0 then .zero s else .finite s m e (Nat.pos_of_ne_zero h)

theorem mantissa_ofMantissaAndAccuracy (m : ℕ) (a : Accuracy) :
    (ExtendedMantissa.ofMantissaAndAccuracy m a).mantissa = m := by
  cases a with
  | exact => rfl
  | inexact o => cases o <;> rfl

theorem roundWithAccuracy_isRounded (s : Sign) {m : ℕ} {e : ℤ} {a : Accuracy} {r : ℚ}
    (h : Locates (.ofMantissaAndAccuracy m a) (r / 2 ^ e)) (he : e ≤ target m e) :
    ∃ n f, IsRounded r n f ∧ roundWithAccuracy .binary64 s m e a = unpacked s n f := by
  have hpos : (0 : ℚ) < 2 ^ e := zpow_pos two_pos _
  have hlow := h.mantissa_le
  have hhigh := h.lt_mantissa
  rw [mantissa_ofMantissaAndAccuracy, le_div_iff₀ hpos] at hlow
  rw [mantissa_ofMantissaAndAccuracy, div_lt_iff₀ hpos] at hhigh
  have hscale := isScale_target hlow hhigh he
  obtain ⟨shift, hshift⟩ := Int.eq_ofNat_of_zero_le (sub_nonneg.mpr he)
  have htarget : e + shift = target m e := by omega
  have hn := (h.shiftRight shift).isNearestInt
  rw [div_div, ← zpow_natCast, ← zpow_add₀ two_ne_zero, htarget] at hn
  unfold roundWithAccuracy
  rw [shiftToTargetExponent_eq, hshift, Int.toNat_natCast, htarget]
  rcases (hscale.significand_le hn).lt_or_eq with hlt | heq
  · refine ⟨_, _, hscale.isRounded hn hlt, ?_⟩
    simp only [shiftToTargetExponent_of_lt hlt hscale.le]
    rfl
  · rw [heq] at hn
    refine ⟨_, _, hscale.isRounded_carry hn, ?_⟩
    simp only [heq, shiftToTargetExponent_carry hscale.le]
    rfl

/-! ## Integers, products and quotients -/

theorem locates_exact (m : ℕ) : Locates (.ofMantissaAndAccuracy m .exact) m := by
  simp [Locates, low, ExtendedMantissa.ofMantissaAndAccuracy]

/-- The accuracy of a fraction says where in the unit it is. -/
theorem locates_fraction (n : ℕ) {r d : ℕ} (h : r < d) :
    Locates (.ofMantissaAndAccuracy n (accuracyOfFraction r d)) (n + r / d) := by
  have hd : (0 : ℚ) < d := by exact_mod_cast (Nat.zero_le r).trans_lt h
  have hone : (r : ℚ) / d < 1 := (div_lt_one hd).mpr (by exact_mod_cast h)
  unfold accuracyOfFraction
  split
  · rename_i hr
    rw [hr, Nat.cast_zero, zero_div, add_zero]
    exact locates_exact n
  · rename_i hr
    have hpos : (0 : ℚ) < r / d := div_pos (by exact_mod_cast Nat.pos_of_ne_zero hr) hd
    rcases lt_trichotomy (2 * r) d with hhalf | hhalf | hhalf
    · have hlow : (r : ℚ) / d < 1 / 2 := by
        rw [div_lt_div_iff₀ hd two_pos]
        exact_mod_cast (by omega : r * 2 < 1 * d)
      rw [Nat.compare_eq_lt.mpr hhalf]
      show (n + 0 : ℚ) < n + r / d ∧ n + (r : ℚ) / d < n + 0 + 1 / 2
      constructor <;> linarith
    · have hmiddle : (r : ℚ) / d = 1 / 2 := by
        rw [div_eq_div_iff hd.ne' two_ne_zero]
        exact_mod_cast (by omega : r * 2 = 1 * d)
      rw [Nat.compare_eq_eq.mpr hhalf, hmiddle]
      rfl
    · have hhigh : (1 : ℚ) / 2 < r / d := by
        rw [div_lt_div_iff₀ two_pos hd]
        exact_mod_cast (by omega : 1 * d < r * 2)
      rw [Nat.compare_eq_gt.mpr hhalf]
      show (n + 1 / 2 : ℚ) < n + r / d ∧ n + (r : ℚ) / d < n + 1 / 2 + 1 / 2
      constructor <;> linarith

theorem log2_add_le_shiftLeft {m : ℕ} (hm : 0 < m) (k : ℕ) : m.log2 + k ≤ (m <<< k).log2 := by
  rw [Nat.shiftLeft_eq, Nat.le_log2 (Nat.mul_pos hm (Nat.two_pow_pos k)).ne', pow_add]
  exact Nat.mul_le_mul_right _ (Nat.log2_self_le hm.ne')

theorem le_target {m : ℕ} {e : ℤ} (h : 52 ≤ m.log2 ∨ e ≤ -1074) : e ≤ target m e := by
  unfold target
  omega

theorem mul_isRounded (s₁ s₂ : Sign) {m₁ m₂ : ℕ} (e₁ e₂ : ℤ) (h₁ : 0 < m₁) (h₂ : 0 < m₂)
    (h : 2 ^ 52 ≤ m₁ * m₂) :
    ∃ n f, IsRounded (m₁ * 2 ^ e₁ * (m₂ * 2 ^ e₂)) n f ∧
      mul .binary64 (.finite s₁ m₁ e₁ h₁) (.finite s₂ m₂ e₂ h₂) = unpacked (s₁ * s₂) n f := by
  have hproduct : (m₁ * 2 ^ e₁ * (m₂ * 2 ^ e₂) : ℚ) / 2 ^ (e₁ + e₂) = (m₁ * m₂ : ℕ) := by
    rw [zpow_add₀ two_ne_zero, Nat.cast_mul]
    field_simp
  refine roundWithAccuracy_isRounded (s₁ * s₂) (hproduct ▸ locates_exact _) (le_target (.inl ?_))
  exact (Nat.le_log2 (Nat.mul_pos h₁ h₂).ne').mpr h

theorem log2_div {m d n : ℕ} (hd : 0 < d) (h : d.log2 + n < m.log2) : n ≤ (m / d).log2 := by
  have hm : m ≠ 0 := by
    rintro rfl
    simp at h
  have hle : 2 ^ n ≤ m / d := by
    rw [Nat.le_div_iff_mul_le hd]
    calc 2 ^ n * d ≤ 2 ^ n * 2 ^ (d.log2 + 1) := Nat.mul_le_mul_left _ Nat.lt_log2_self.le
      _ = 2 ^ (d.log2 + n + 1) := by rw [← pow_add]; congr 1; omega
      _ ≤ 2 ^ m.log2 := Nat.pow_le_pow_right two_pos h
      _ ≤ m := Nat.log2_self_le hm
  exact (Nat.le_log2 ((Nat.two_pow_pos n).trans_le hle).ne').mpr hle

theorem div_isRounded (s₁ s₂ : Sign) {m₁ m₂ : ℕ} (e₁ e₂ : ℤ) (h₁ : 0 < m₁) (h₂ : 0 < m₂) :
    ∃ n f, IsRounded (m₁ * 2 ^ e₁ / (m₂ * 2 ^ e₂)) n f ∧
      div .binary64 (.finite s₁ m₁ e₁ h₁) (.finite s₂ m₂ e₂ h₂) = unpacked (s₁ / s₂) n f := by
  have hvalue {t : ℤ} {shift : ℕ} (hshift : e₁ = e₂ + t + shift) :
      (m₁ * 2 ^ e₁ / (m₂ * 2 ^ e₂) : ℚ) / 2 ^ t =
        ((m₁ <<< shift) / m₂ : ℕ) + ((m₁ <<< shift) % m₂ : ℕ) / m₂ := by
    have hpos : (m₂ : ℚ) ≠ 0 := by exact_mod_cast h₂.ne'
    have hdivision : (m₂ : ℚ) * (m₁ <<< shift / m₂ : ℕ) + (m₁ <<< shift % m₂ : ℕ) =
        m₁ * 2 ^ shift := by
      have hnat := Nat.div_add_mod (m₁ <<< shift) m₂
      rw [Nat.shiftLeft_eq] at hnat ⊢
      exact_mod_cast hnat
    rw [hshift, zpow_add₀ two_ne_zero, zpow_add₀ two_ne_zero, zpow_natCast]
    field_simp
    rw [hdivision]
  simp only [UnpackedFloat.div, divCore]
  generalize htarget : Format.binary64.targetExponent _ = target
  obtain ⟨t, ht⟩ : ∃ t, t = min (e₁ - e₂) target := ⟨_, rfl⟩
  rw [← ht]
  have hshift : e₁ = e₂ + t + (e₁ - e₂ - t).toNat := by omega
  refine roundWithAccuracy_isRounded (s₁ / s₂)
    (hvalue hshift ▸ locates_fraction _ (Nat.mod_lt _ h₂)) (le_target ?_)
  -- the quotient has 53 binary digits, unless it has the least exponent
  simp only [Format.targetExponent, totalExponent, Format.mantissaBits, Format.minExponent]
    at htarget
  norm_num at htarget
  rcases le_or_gt t (-1074) with hleast | hgreater
  · exact .inr hleast
  · refine .inl (log2_div h₂ ?_)
    have hlog := log2_add_le_shiftLeft h₁ (e₁ - e₂ - t).toNat
    omega

/-- More digits with a smaller exponent are the same number. -/
theorem shiftLeft_scaled (m : ℕ) (e : ℤ) (shift : ℕ) :
    ((m <<< shift : ℕ) : ℚ) * 2 ^ (e - shift) = m * 2 ^ e := by
  rw [Nat.shiftLeft_eq, Nat.cast_mul, Nat.cast_pow, Nat.cast_ofNat, mul_assoc, ← zpow_natCast,
    ← zpow_add₀ two_ne_zero, add_sub_cancel]

theorem round_isRounded (s : Sign) {m : ℕ} (e : ℤ) (hm : 0 < m) :
    ∃ n f, IsRounded (m * 2 ^ e) n f ∧ UnpackedFloat.round .binary64 s m e = unpacked s n f := by
  have hvalue (shift : ℕ) : (m * 2 ^ e : ℚ) / 2 ^ (e - shift) = (m <<< shift : ℕ) := by
    rw [← shiftLeft_scaled m e shift, mul_div_cancel_right₀ _ (zpow_pos two_pos _).ne']
  unfold UnpackedFloat.round
  rw [targetExponent_eq]
  refine roundWithAccuracy_isRounded s (hvalue _ ▸ locates_exact _) (le_target ?_)
  have hlog := log2_add_le_shiftLeft hm (e - target m e).toNat
  unfold target at hlog ⊢
  omega

end Cascade.Rounding
