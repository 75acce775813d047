import Cascade.Proofs.Floats

/-!
# The nearest number

What digits are read as is specified without the arithmetic that reads them. It is the finite
number that is nearest to their value, the one with the even significand of two that are as near,
and infinity beyond all finite numbers (`Decimal.IsNearest`). There is such a number
(`Decimal.Holds.isNearest`), and there is only one (`Decimal.IsNearest.unique`).
-/

namespace Cascade.Decimal

open Float.Model Float.Model.UnpackedFloat Rounding

/-- The absolute value of a finite number. -/
def absolute (x : Float) : ℚ := (decompose x).1 * 2 ^ (decompose x).2

/-- `x` is what `r` is rounded to, with a sign that is given. Values are rounded to infinity from
half a unit of the last place above the greatest finite number on. -/
structure IsNearest (x : Float) (negative : Bool) (r : ℚ) : Prop where
  sign : isNegative x = negative
  infinite : limit ≤ r → x.isInf = true
  finite : r < limit → x.isFinite = true
  near : r < limit → ∀ y : Float, y.isFinite = true → |absolute x - r| ≤ |absolute y - r|
  even : r < limit → ∀ y : Float, y.isFinite = true → absolute y ≠ absolute x →
    |absolute y - r| = |absolute x - r| → Even (decompose x).1

/-! ## Significands and exponents of numbers -/

theorem isCanonical_decompose (x : Float) : IsCanonical (decompose x).1 (decompose x).2 := by
  have htrailing : trailing x < 2 ^ 52 := Nat.mod_lt _ (by decide)
  rw [decompose_eq]
  split
  · exact ⟨htrailing.trans (by decide), le_rfl, fun h => absurd h (lt_irrefl _)⟩
  · refine ⟨?_, ?_, fun _ => Nat.le_add_right _ _⟩
    · show 2 ^ 52 + trailing x < 2 ^ 53
      omega
    · show -1074 ≤ (biased x : ℤ) - 1075
      omega

/-- The fields of a number are all there is of it. -/
theorem eq_of_decompose {x y : Float} (hsign : isNegative x = isNegative y)
    (h : decompose x = decompose y) : x = y := by
  have hx : trailing x < 2 ^ 52 := Nat.mod_lt _ (by decide)
  have hy : trailing y < 2 ^ 52 := Nat.mod_lt _ (by decide)
  have hfields : biased x = biased y ∧ trailing x = trailing y := by
    rw [decompose_eq, decompose_eq] at h
    split at h <;> split at h <;> rw [Prod.mk.injEq] at h <;> omega
  have hbits : x.toBits.toNat = y.toBits.toNat := by
    have hltx : x.toBits.toNat < 2 ^ 64 := x.toBits.toNat_lt
    have hlty : y.toBits.toNat < 2 ^ 64 := y.toBits.toNat_lt
    unfold isNegative at hsign
    rw [decide_eq_decide] at hsign
    unfold biased trailing at hfields
    omega
  obtain ⟨⟨bits, hvalid⟩⟩ := x
  obtain ⟨⟨bits', hvalid'⟩⟩ := y
  obtain rfl : bits = bits' := UInt64.toNat_inj.mp hbits
  rfl

section

variable {x : Float} {s : Sign} {m : ℕ} {e : ℤ}

theorem decompose_of_unpack (hx : x.toModel.unpack = unpacked s m e) (h : IsCanonical m e) :
    sign x = s ∧ decompose x = (m, e) := by
  have heq := (unpack_eq x).symm.trans hx
  unfold unpacked at heq
  split at heq
  · split at heq <;> split at heq <;> cases heq
  split at heq
  · rename_i hzero
    split at heq
    · rename_i hm
      cases heq
      have hcanonical := isCanonical_decompose x
      rw [hzero] at hcanonical
      rw [hm] at h
      refine ⟨rfl, Prod.ext (hzero.trans hm.symm) ?_⟩
      exact hcanonical.exponent_eq_of_zero.trans h.exponent_eq_of_zero.symm
    · cases heq
  · split at heq
    · cases heq
    · cases heq
      exact ⟨rfl, rfl⟩

theorem fields_of_infinity (hx : x.toModel.unpack = .infinity s) :
    sign x = s ∧ biased x = 2047 ∧ trailing x = 0 := by
  have heq := (unpack_eq x).symm.trans hx
  unfold unpacked at heq
  split at heq
  · rename_i hbiased
    split at heq
    · rename_i htrailing
      cases heq
      exact ⟨rfl, hbiased, htrailing⟩
    · cases heq
  · split at heq <;> cases heq

end

theorem decompose_of_isInf {x : Float} (h : x.isInf = true) : decompose x = (2 ^ 52, 972) := by
  change x.toModel.unpack.isInf = true at h
  generalize hx : x.toModel.unpack = u at h
  cases u with
  | infinity s =>
      obtain ⟨-, hbiased, htrailing⟩ := fields_of_infinity hx
      rw [decompose_eq, hbiased, htrailing]
      rfl
  | notANumber | zero s | finite s m e hm => cases h

theorem exponent_le_of_isFinite {x : Float} (h : x.isFinite = true) : (decompose x).2 ≤ 971 := by
  have hbiased : biased x ≠ 2047 := fun hx => by
    change x.toModel.unpack.isFinite = true at h
    rw [unpack_eq, if_pos hx] at h
    split at h <;> cases h
  have hlt : biased x < 2 ^ 11 := Nat.mod_lt _ (by decide)
  rw [decompose_eq]
  split
  · show (-1074 : ℤ) ≤ 971
    decide
  · show (biased x : ℤ) - 1075 ≤ 971
    omega

theorem isFinite_of_unpack {x : Float} {s : Sign} {m : ℕ} {e : ℤ}
    (hx : x.toModel.unpack = unpacked s m e) : x.isFinite = true := by
  show x.toModel.unpack.isFinite = true
  rw [hx, unpacked]
  split <;> rfl

theorem exists_of_isCanonical {m : ℕ} {e : ℤ} (h : IsCanonical m e) (he : e ≤ 971) :
    ∃ x : Float, x.isFinite = true ∧ decompose x = (m, e) := by
  let x : Float := .ofModel (.pack (unpacked .positive m e))
  have hunpack : x.toModel.unpack = unpacked .positive m e :=
    (unpack_pack .positive h).trans (if_pos he)
  exact ⟨x, isFinite_of_unpack hunpack, (decompose_of_unpack hunpack h).2⟩

/-! ## What is nearest -/

theorem Holds.isNearest {x : Float} {negative : Bool} {r : ℚ}
    (h : Holds x (if negative then .negative else .positive) r) : IsNearest x negative r := by
  have hnegative (hsign : sign x = if negative then .negative else .positive) :
      isNegative x = negative := by
    unfold sign at hsign
    generalize isNegative x = b at hsign ⊢
    cases b <;> cases negative <;> first | rfl | cases hsign
  rcases lt_or_ge r limit with hr | hr
  · obtain ⟨m, e, hrounded, hx⟩ := h.finite hr
    obtain ⟨hsign, hdecompose⟩ := decompose_of_unpack hx hrounded.toIsCanonical
    refine ⟨hnegative hsign, fun hle => absurd hr hle.not_gt, fun _ => isFinite_of_unpack hx,
      fun _ y _ => ?_, fun _ y _ => ?_⟩
    · have hy := isCanonical_decompose y
      rw [absolute, absolute, hdecompose]
      exact hrounded.near _ _ hy.lt hy.le
    · have hy := isCanonical_decompose y
      rw [absolute, absolute, hdecompose]
      exact hrounded.even _ _ hy.lt hy.le
  · have hx := h.infinite hr
    refine ⟨hnegative (fields_of_infinity hx).1, fun _ => ?_, fun hlt => absurd hlt hr.not_gt,
      fun hlt => absurd hlt hr.not_gt, fun hlt => absurd hlt hr.not_gt⟩
    show x.toModel.unpack.isInf = true
    rw [hx]
    rfl

namespace IsNearest

variable {x y : Float} {negative : Bool} {r : ℚ}

/-- Of two neighbours that are as near only one has an even significand. -/
theorem absolute_le (hx : IsNearest x negative r) (hy : IsNearest y negative r) (hr : r < limit) :
    absolute y ≤ absolute x := by
  by_contra hle
  have hlt := not_le.mp hle
  have htie : |absolute y - r| = |absolute x - r| :=
    (hy.near hr x (hx.finite hr)).antisymm (hx.near hr y (hy.finite hr))
  have hmiddle : absolute y - r = -(absolute x - r) := by
    rcases abs_eq_abs.mp htie with heq | heq
    · linarith
    · exact heq
  have hevenx := hx.even hr y (hy.finite hr) hlt.ne' htie
  have heveny := hy.even hr x (hx.finite hr) hlt.ne htie.symm
  have hcx := isCanonical_decompose x
  have hcy := isCanonical_decompose y
  -- the number that comes after `x`
  have hsucc : IsCanonical ((decompose x).1 + 1) (decompose x).2 := by
    refine ⟨?_, hcx.le, fun h => (hcx.normal h).trans (Nat.le_succ _)⟩
    have hlong := hcx.lt
    obtain ⟨k, hk⟩ := hevenx
    omega
  obtain ⟨z, hz, hdecompose⟩ :=
    exists_of_isCanonical hsucc (exponent_le_of_isFinite (hx.finite hr))
  have habove : absolute x < absolute z := by
    rw [absolute, absolute, hdecompose]
    exact mul_lt_mul_of_pos_right (by push_cast; linarith) (zpow_pos two_pos _)
  have hbelow : absolute z ≤ absolute y := by
    rw [absolute, absolute, hdecompose]
    exact hcx.succ_le hcy hlt
  rcases hbelow.lt_or_eq with hbetween | heq
  · have hnear : |absolute z - r| < |absolute x - r| := by
      rw [abs_of_neg (show absolute x - r < 0 by linarith), abs_lt]
      constructor <;> linarith
    exact hnear.not_ge (hx.near hr z hz)
  · rw [absolute, absolute, hdecompose] at heq
    rw [← (hsucc.inj hcy heq).1] at heveny
    exact Nat.not_even_iff_odd.mpr hevenx.add_one heveny

/-- There is one number that values are rounded to. -/
theorem unique (hx : IsNearest x negative r) (hy : IsNearest y negative r) : x = y := by
  refine eq_of_decompose (hx.sign.trans hy.sign.symm) ?_
  rcases lt_or_ge r limit with hr | hr
  · have heq := (hy.absolute_le hx hr).antisymm (hx.absolute_le hy hr)
    have hinj := (isCanonical_decompose x).inj (isCanonical_decompose y) heq
    exact Prod.ext hinj.1 hinj.2
  · rw [decompose_of_isInf (hx.infinite hr), decompose_of_isInf (hy.infinite hr)]

end IsNearest

end Cascade.Decimal
