import Cascade.Proofs.Rounding

/-!
# Reading decimals

`Decimal.toFloat` rounds: whatever digits it is given and however many, what it comes to is their
value, rounded to 53 binary digits (`Decimal.holds_toFloat`). Few digits and small powers of ten are
multiplied or divided as they are, since both are numbers then, and everything else is rounded once
from the exact quotient or product. What is infinite or zero by its magnitude alone is so after
rounding too.

That a number holds a value is said of its fields, the sign, the significand and the exponent,
which are those that it is written with (`Decimal.unpack_eq`).
-/

namespace Cascade.Decimal

open Float.Model Float.Model.UnpackedFloat Rounding

/-! ## The fields of a number -/

/-- The exponent as the bits of a number hold it, with an offset. -/
def biased (x : Float) : ℕ := x.toBits.toNat / 2 ^ 52 % 2 ^ 11

/-- The significand as the bits of a number hold it, without its first digit. -/
def trailing (x : Float) : ℕ := x.toBits.toNat % 2 ^ 52

/-- Whether a number has a minus sign, which zero may have too. -/
def isNegative (x : Float) : Bool := 2 ^ 63 ≤ x.toBits.toNat

theorem decompose_eq (x : Float) :
    decompose x =
      if biased x = 0 then (trailing x, -1074)
      else (2 ^ 52 + trailing x, (biased x : ℤ) - 1075) := by
  unfold decompose biased trailing
  generalize x.toBits.toNat = b
  have hexponent : b % 2 ^ 63 / 2 ^ 52 = b / 2 ^ 52 % 2 ^ 11 := by omega
  have hfraction : b % 2 ^ 63 % 2 ^ 52 = b % 2 ^ 52 := by omega
  simp only [Nat.pow_eq]
  rw [hexponent, hfraction]
  cases b / 2 ^ 52 % 2 ^ 11 with
  | zero => rfl
  | succ e =>
      rw [if_neg e.succ_ne_zero, Prod.mk.injEq]
      exact ⟨rfl, by omega⟩

theorem unpacked_of_pos (s : Sign) {m : ℕ} (e : ℤ) (h : 0 < m) : unpacked s m e = .finite s m e h :=
  dif_neg h.ne'

/-- The sign that the bits of a number have. -/
def sign (x : Float) : Sign := if isNegative x then .negative else .positive

theorem sign_eq (x : Float) :
    Sign.ofBitVec (@unpackSign .binary64 x.toBits.toBitVec) = sign x := by
  have hlt : x.toBits.toNat < 2 ^ 64 := x.toBits.toNat_lt
  have hbit : @unpackSign .binary64 x.toBits.toBitVec = 0#1 ↔ x.toBits.toNat < 2 ^ 63 := by
    rw [unpackSign_def, ← BitVec.toNat_inj, BitVec.extractLsb'_toNat, Nat.shiftRight_eq_div_pow]
    show x.toBits.toNat / 2 ^ 63 % 2 = 0 ↔ _
    omega
  simp only [Sign.ofBitVec, hbit, sign, isNegative, decide_eq_true_eq, ← not_lt, ite_not]

theorem toNat_unpackExponent (x : Float) :
    (@unpackExponent .binary64 x.toBits.toBitVec).toNat = biased x := by
  rw [unpackExponent_def, BitVec.extractLsb'_toNat, Nat.shiftRight_eq_div_pow]
  rfl

theorem toNat_unpackMantissa (x : Float) :
    (@unpackMantissa .binary64 x.toBits.toBitVec).toNat = trailing x := by
  rw [unpackMantissa_def, BitVec.extractLsb'_toNat, Nat.shiftRight_zero]
  rfl

/-- A number is taken apart as it is for writing. -/
theorem unpack_eq (x : Float) :
    x.toModel.unpack =
      if biased x = 2047 then if trailing x = 0 then .infinity (sign x) else .notANumber
      else unpacked (sign x) (decompose x).1 (decompose x).2 := by
  show UnpackedFloat.unpack .binary64 x.toBits.toBitVec = _
  unfold UnpackedFloat.unpack
  rw [decompose_eq, ← toNat_unpackExponent, ← toNat_unpackMantissa, ← sign_eq]
  have hones : @unpackExponent .binary64 x.toBits.toBitVec = -1#_ ↔
      (@unpackExponent .binary64 x.toBits.toBitVec).toNat = 2047 := BitVec.toNat_inj.symm
  have hexponent : @unpackExponent .binary64 x.toBits.toBitVec = 0#_ ↔
      (@unpackExponent .binary64 x.toBits.toBitVec).toNat = 0 := BitVec.toNat_inj.symm
  have hmantissa : @unpackMantissa .binary64 x.toBits.toBitVec = 0#_ ↔
      (@unpackMantissa .binary64 x.toBits.toBitVec).toNat = 0 := BitVec.toNat_inj.symm
  simp only [hones, hexponent, hmantissa]
  split
  · rfl
  split
  · rename_i h
    rw [h]
    rfl
  · rename_i h
    rw [← unpacked_of_pos]
    congr 1
    rw [BitVec.toNat_append, ← Nat.shiftLeft_add_eq_or_of_lt (BitVec.isLt _)]
    rfl

/-! ## Packing -/

/-- What is left of a significand and an exponent after packing: infinity, if the exponent is above
the greatest one. -/
def packed (s : Sign) (m : ℕ) (e : ℤ) : UnpackedFloat :=
  if e ≤ 971 then unpacked s m e else .infinity s

theorem unpack_packedInfinity (s : Sign) :
    UnpackedFloat.unpack .binary64 (packedInfinity .binary64 s) = .infinity s := by
  simp [UnpackedFloat.unpack, packedInfinity]

theorem unpack_packComponents_normal (s : Sign) {m b : ℕ} (hm : m < 2 ^ 53) (hnormal : 2 ^ 52 ≤ m)
    (hb : 0 < b) (hb' : b < 2047) :
    UnpackedFloat.unpack .binary64
        (packComponents .binary64 s (BitVec.ofNat _ b) (BitVec.ofNat _ m)) =
      unpacked s m (b - 1075) := by
  have hzero : BitVec.ofNat 11 b ≠ 0#_ := fun h => by
    have := congrArg BitVec.toNat h
    simp at this
    omega
  have hones : BitVec.ofNat 11 b ≠ -1#_ := fun h => by
    have := congrArg BitVec.toNat h
    simp at this
    omega
  unfold UnpackedFloat.unpack
  simp only [unpackExponent_packComponents, unpackMantissa_packComponents,
    unpackSign_packComponents, hzero, hones, if_false, Sign.ofBitVec_toBitVec]
  rw [← unpacked_of_pos]
  congr 1
  · rw [BitVec.toNat_append, ← Nat.shiftLeft_add_eq_or_of_lt (BitVec.isLt _), BitVec.toNat_ofNat]
    show 1 <<< 52 + m % 2 ^ 52 = m
    omega
  · rw [BitVec.toNat_ofNat]
    show ((b % 2 ^ 11 : ℕ) : ℤ) - (1023 + 52) = _
    omega

theorem unpack_packComponents_subnormal (s : Sign) {m : ℕ} (hm : m < 2 ^ 52) :
    UnpackedFloat.unpack .binary64 (packComponents .binary64 s 0#_ (BitVec.ofNat _ m)) =
      unpacked s m (-1074) := by
  have hmantissa : (BitVec.ofNat 52 m).toNat = m := Nat.mod_eq_of_lt hm
  unfold UnpackedFloat.unpack
  simp only [unpackExponent_packComponents, unpackMantissa_packComponents,
    unpackSign_packComponents, Sign.ofBitVec_toBitVec]
  rw [if_neg (by decide), if_pos trivial]
  split
  · rename_i hzero
    rw [hzero] at hmantissa
    subst hmantissa
    rfl
  · rw [← unpacked_of_pos]
    congr 1

/-- A significand that has all its digits, or has the least exponent, is not changed by packing. -/
theorem unpack_pack (s : Sign) {m : ℕ} {e : ℤ} (h : IsCanonical m e) :
    (Float.Model.pack (unpacked s m e)).unpack = packed s m e := by
  show UnpackedFloat.unpack .binary64 (UnpackedFloat.pack .binary64 (unpacked s m e)) = _
  rcases Nat.eq_zero_or_pos m with rfl | hpos
  · obtain rfl := h.exponent_eq_of_zero
    exact unpack_packedZero
  · have hleast := h.le
    rw [unpacked_of_pos s e hpos, UnpackedFloat.pack]
    have hbiased : (e + Format.exponentBias .binary64 + (52 : ℕ)).toNat = (e + 1075).toNat := by
      show (e + 1023 + 52).toNat = _
      omega
    simp only
    rw [hbiased, packed]
    by_cases hfits : e ≤ 971
    · rw [if_pos hfits, if_neg (by omega)]
      by_cases hlong : 2 ^ 52 ≤ m
      · have hlog : m.log2 + 1 = Format.binary64.mantissaBits := by
          rw [(Nat.log2_eq_iff hpos.ne').mpr ⟨hlong, h.lt⟩]
          rfl
        rw [if_pos hlog, unpack_packComponents_normal s h.lt hlong (by omega) (by omega)]
        congr 1
        omega
      · have hlog : ¬ m.log2 + 1 = Format.binary64.mantissaBits := by
          have hlt := (Nat.log2_lt hpos.ne').mpr (not_le.mp hlong)
          show ¬ m.log2 + 1 = 53
          omega
        obtain rfl : e = -1074 := by
          by_contra hne
          exact hlong (h.normal (lt_of_le_of_ne h.le (Ne.symm hne)))
        rw [if_neg hlog, unpack_packComponents_subnormal s (not_le.mp hlong)]
    · rw [if_neg hfits, if_pos (by omega)]
      exact unpack_packedInfinity s

/-! ## Arithmetic -/

/-- `x` is `r` after rounding, with a sign that is given. -/
structure Holds (x : Float) (s : Sign) (r : ℚ) : Prop where
  infinite : limit ≤ r → x.toModel.unpack = .infinity s
  finite : r < limit → ∃ m e, IsRounded r m e ∧ x.toModel.unpack = unpacked s m e

section

variable {x y : Float} {s : Sign} {r : ℚ}

theorem Holds.of_pack {u : UnpackedFloat} (h : ∃ m e, IsRounded r m e ∧ u = unpacked s m e) :
    Holds (.ofModel (.pack u)) s r := by
  obtain ⟨m, e, hrounded, rfl⟩ := h
  have hpack := unpack_pack s hrounded.toIsCanonical
  refine ⟨fun hr => ?_, fun hr => ⟨m, e, hrounded, ?_⟩⟩
  · exact hpack.trans (if_neg (mt hrounded.fits.mp hr.not_gt))
  · exact hpack.trans (if_pos (hrounded.fits.mpr hr))

theorem neg_unpacked (s : Sign) (m : ℕ) (e : ℤ) : (unpacked s m e).neg = unpacked (-s) m e := by
  unfold unpacked
  split <;> rfl

theorem Holds.neg (h : Holds x s r) : Holds (-x) (-s) r where
  infinite hr := by
    show (Float.Model.pack x.toModel.unpack.neg).unpack = _
    rw [h.infinite hr]
    exact unpack_packedInfinity (-s)
  finite hr := by
    obtain ⟨m, e, hrounded, hx⟩ := h.finite hr
    refine ⟨m, e, hrounded, ?_⟩
    show (Float.Model.pack x.toModel.unpack.neg).unpack = _
    rw [hx, neg_unpacked, unpack_pack (-s) hrounded.toIsCanonical]
    exact if_pos (hrounded.fits.mpr hr)

/-- `x` is `m * 2 ^ e`, which is positive, without any rounding. -/
structure IsExact (x : Float) (m : ℕ) (e : ℤ) : Prop where
  pos : 0 < m
  unpack : x.toModel.unpack = unpacked .positive m e

theorem IsExact.mul {m₁ m₂ : ℕ} {e₁ e₂ : ℤ} (hx : IsExact x m₁ e₁) (hy : IsExact y m₂ e₂)
    (h : 2 ^ 52 ≤ m₁ * m₂) : Holds (x * y) .positive (m₁ * 2 ^ e₁ * (m₂ * 2 ^ e₂)) := by
  show Holds (.ofModel (.pack (.mul .binary64 x.toModel.unpack y.toModel.unpack))) _ _
  rw [hx.unpack, hy.unpack, unpacked_of_pos _ _ hx.pos, unpacked_of_pos _ _ hy.pos]
  exact .of_pack (mul_isRounded _ _ _ _ _ _ h)

theorem IsExact.div {m₁ m₂ : ℕ} {e₁ e₂ : ℤ} (hx : IsExact x m₁ e₁) (hy : IsExact y m₂ e₂) :
    Holds (x / y) .positive (m₁ * 2 ^ e₁ / (m₂ * 2 ^ e₂)) := by
  show Holds (.ofModel (.pack (.div .binary64 x.toModel.unpack y.toModel.unpack))) _ _
  rw [hx.unpack, hy.unpack, unpacked_of_pos _ _ hx.pos, unpacked_of_pos _ _ hy.pos]
  exact .of_pack (div_isRounded _ _ _ _ _ _)

end

/-! ## Decimals -/

/-- Integers of up to 53 binary digits are not changed by rounding. -/
theorem exists_isExact_integer {n : ℕ} (hn : 0 < n) (h : n < 2 ^ 53) :
    ∃ m e, IsExact n.toUInt64.toFloat m e ∧ (m * 2 ^ e : ℚ) = n ∧ 2 ^ 52 ≤ m := by
  obtain ⟨m, e, hrounded, hround⟩ := round_isRounded .positive 0 hn
  -- nothing is nearer to the integer than the integer itself
  have hvalue : (m * 2 ^ e : ℚ) = n := by
    have hnear := hrounded.near n 0 h (by norm_num)
    rw [sub_self, abs_zero, zpow_zero, mul_one] at hnear
    exact sub_eq_zero.mp (abs_nonpos_iff.mp hnear)
  rw [zpow_zero, mul_one] at hrounded
  have hpos : 0 < m := by
    rcases Nat.eq_zero_or_pos m with rfl | hm
    · rw [Nat.cast_zero, zero_mul] at hvalue
      exact absurd (by exact_mod_cast hvalue.symm) hn.ne'
    · exact hm
  have hlimit : (n : ℚ) < limit := by
    refine lt_of_lt_of_le ?_ le_limit
    calc (n : ℚ) < 2 ^ 53 := by exact_mod_cast h
      _ ≤ 2 ^ (1023 : ℤ) := by
        rw [← zpow_natCast]
        exact zpow_le_zpow_right₀ one_le_two (by norm_num)
  have hnormal : 2 ^ 52 ≤ m := by
    refine hrounded.normal (lt_of_le_of_ne hrounded.le ?_)
    rintro rfl
    have hone : (1 : ℚ) ≤ n := by exact_mod_cast hn
    have hlt : (m : ℚ) < 2 ^ 53 := by exact_mod_cast hrounded.lt
    have hsmall : (m * 2 ^ (-1074 : ℤ) : ℚ) < 1 := by
      calc (m * 2 ^ (-1074 : ℤ) : ℚ) < 2 ^ (53 : ℤ) * 2 ^ (-1074 : ℤ) :=
            mul_lt_mul_of_pos_right hlt (zpow_pos two_pos _)
        _ = 2 ^ (53 + -1074 : ℤ) := (zpow_add₀ two_ne_zero _ _).symm
        _ ≤ 1 := zpow_le_one_of_nonpos₀ one_le_two (by norm_num)
    linarith
  have hunpack : n.toUInt64.toFloat.toModel.unpack = unpacked .positive m e := by
    have hmod : n.toUInt64.toNat = n := Nat.mod_eq_of_lt (by omega)
    have hnormalize : normalize .binary64 n 0 .positive = unpacked .positive m e := by
      rw [UnpackedFloat.normalize, Int.compare_eq_gt.mpr (by omega)]
      exact hround
    show (Float.Model.pack (normalize .binary64 n.toUInt64.toNat 0 .positive)).unpack = _
    rw [hmod, hnormalize, unpack_pack .positive hrounded.toIsCanonical]
    exact if_pos (hrounded.fits.mpr hlimit)
  exact ⟨m, e, ⟨hpos, hunpack⟩, hvalue, hnormal⟩

theorem powersOfTen_fields (k : Fin Float.exactlyRepresentablePowersOfTen.size) :
    let x := Float.exactlyRepresentablePowersOfTen[k]
    biased x ≠ 2047 ∧ sign x == .positive ∧
      (decompose x).1 * 2 ^ (decompose x).2.toNat = 10 ^ k.val * 2 ^ (-(decompose x).2).toNat := by
  decide +kernel +revert

/-- The powers of ten that decimals are multiplied or divided by are not rounded. -/
theorem exists_isExact_powersOfTen {k : ℕ} (h : k < Float.exactlyRepresentablePowersOfTen.size) :
    ∃ m e, IsExact Float.exactlyRepresentablePowersOfTen[k] m e ∧ (m * 2 ^ e : ℚ) = 10 ^ k := by
  obtain ⟨hbiased, hsign, hvalue⟩ := powersOfTen_fields ⟨k, h⟩
  simp only [Fin.getElem_fin] at hbiased hsign hvalue
  generalize Float.exactlyRepresentablePowersOfTen[k] = x at *
  refine ⟨(decompose x).1, (decompose x).2, ⟨?_, ?_⟩, ?_⟩
  · refine Nat.pos_of_ne_zero fun hzero => ?_
    rw [hzero, zero_mul] at hvalue
    exact absurd hvalue (by positivity)
  · rw [unpack_eq, if_neg hbiased, eq_of_beq hsign]
  · generalize (decompose x).1 = m at hvalue
    generalize (decompose x).2 = e at hvalue
    have hsplit : (2 : ℚ) ^ e = 2 ^ e.toNat / 2 ^ (-e).toNat := by
      rw [← zpow_natCast, ← zpow_natCast, ← zpow_sub₀ two_ne_zero]
      congr 1
      omega
    rw [hsplit, ← mul_div_assoc, div_eq_iff (by positivity)]
    exact_mod_cast hvalue

section

variable {x : Float} {r : ℚ}

theorem Holds.of_infinity (h : limit ≤ r) (hx : x.toModel.unpack = .infinity .positive) :
    Holds x .positive r := ⟨fun _ => hx, fun hr => absurd hr h.not_gt⟩

theorem Holds.of_zero (h : 0 ≤ r) (hr : r ≤ 2 ^ (-1075 : ℤ))
    (hx : x.toModel.unpack = .zero .positive) : Holds x .positive r := by
  have hlimit : r < limit :=
    (hr.trans_lt (zpow_lt_zpow_right₀ one_lt_two (by norm_num))).trans_le le_limit
  exact ⟨fun hle => absurd hlimit hle.not_gt, fun _ => ⟨0, -1074, isRounded_zero h hr, hx⟩⟩

end

/-- A power of ten is not less than the power of two with three times the exponent. -/
theorem two_zpow_le_ten_zpow {a b : ℤ} (hb : 0 ≤ b) (h : a ≤ 3 * b) : (2 : ℚ) ^ a ≤ 10 ^ b := by
  calc (2 : ℚ) ^ a ≤ 2 ^ (3 * b) := zpow_le_zpow_right₀ one_le_two h
    _ = 8 ^ b := by rw [zpow_mul]; norm_num
    _ ≤ 10 ^ b := zpow_le_zpow_left₀ hb (by norm_num) (by norm_num)

theorem ten_zpow_le_two_zpow {a b : ℤ} (hb : b ≤ 0) (h : 3 * b ≤ a) : (10 : ℚ) ^ b ≤ 2 ^ a := by
  have hinv := two_zpow_le_ten_zpow (a := -a) (b := -b) (by omega) (by omega)
  rw [zpow_neg, zpow_neg] at hinv
  exact (inv_le_inv₀ (zpow_pos two_pos _) (zpow_pos (by norm_num) _)).mp hinv

/-- The exact product or quotient is rounded. -/
theorem holds_modelOfScientific {m : ℕ} (hm : 0 < m) (e : ℤ) :
    Holds (.ofModel (Float.Model.ofScientific m e)) .positive (m * 10 ^ e) := by
  have hone : (1 : ℚ) ≤ m := by exact_mod_cast hm
  have hlog : (m : ℚ) ≤ 2 ^ (m.log2 + 1 : ℤ) := by exact_mod_cast Nat.lt_log2_self.le
  unfold Float.Model.ofScientific UnpackedFloat.ofScientific
  rw [dif_neg hm.ne']
  split
  · rename_i hgreat
    change e > 2048 at hgreat
    refine .of_infinity ?_ (unpack_packedInfinity .positive)
    calc limit ≤ 2 ^ (1024 : ℤ) := limit_lt.le
      _ ≤ 10 ^ e := two_zpow_le_ten_zpow (by omega) (by omega)
      _ ≤ m * 10 ^ e := le_mul_of_one_le_left (by positivity) hone
  split
  · rename_i hsmall
    change e < -(2048 + m.log2) at hsmall
    refine .of_zero (by positivity) ?_ unpack_packedZero
    calc (m * 10 ^ e : ℚ) ≤ 2 ^ (m.log2 + 1 : ℤ) * 2 ^ e :=
          mul_le_mul hlog (ten_zpow_le_two_zpow (by omega) (by omega)) (by positivity)
            (by positivity)
      _ = 2 ^ (m.log2 + 1 + e : ℤ) := (zpow_add₀ two_ne_zero _ _).symm
      _ ≤ 2 ^ (-1075 : ℤ) := zpow_le_zpow_right₀ one_le_two (by omega)
  split
  · rename_i he
    obtain ⟨k, rfl⟩ := Int.eq_ofNat_of_zero_le he
    have hvalue : ((m <<< 53 : ℕ) * 2 ^ (-53 : ℤ) * ((10 ^ k : ℕ) * 2 ^ (0 : ℤ)) : ℚ) =
        m * 10 ^ (k : ℤ) := by
      have hshift : ((m <<< 53 : ℕ) : ℚ) * 2 ^ (-53 : ℤ) = m * 2 ^ (0 : ℤ) :=
        shiftLeft_scaled m 0 53
      rw [hshift, zpow_zero, mul_one, mul_one, Nat.cast_pow, zpow_natCast]
      rfl
    rw [← hvalue]
    refine .of_pack (mul_isRounded .positive .positive (-53) 0 _ _ ?_)
    calc 2 ^ 52 ≤ m <<< 53 := by rw [Nat.shiftLeft_eq]; omega
      _ ≤ m <<< 53 * 10 ^ k := Nat.le_mul_of_pos_right _ (by positivity)
  · rename_i he
    obtain ⟨k, rfl⟩ : ∃ k : ℕ, e = -k := ⟨(-e).toNat, by omega⟩
    have hvalue : (m * 2 ^ (0 : ℤ) / ((10 ^ k : ℕ) * 2 ^ (0 : ℤ)) : ℚ) = m * 10 ^ (-k : ℤ) := by
      rw [zpow_zero, mul_one, mul_one, zpow_neg, zpow_natCast, Nat.cast_pow, ← div_eq_mul_inv]
      rfl
    rw [← hvalue]
    have hten : 0 < 10 ^ k := Nat.pow_pos (by decide)
    have hdiv := div_isRounded .positive .positive 0 0 hm hten
    simp only [neg_neg, Int.toNat_natCast]
    exact .of_pack hdiv

theorem holds_ofScientific {m : ℕ} (hm : 0 < m) (s : Bool) (e : ℕ) :
    Holds (Float.ofScientific m s e) .positive (m * 10 ^ (if s then -e else e : ℤ)) := by
  unfold Float.ofScientific
  split
  · -- both are numbers, and the operation rounds
    rename_i h
    obtain ⟨n, f, hexact, hvalue, hnormal⟩ := exists_isExact_integer hm h.1
    obtain ⟨k, g, hpower, hten⟩ := exists_isExact_powersOfTen (k := e) (by
      show e < 23
      omega)
    cases s with
    | true =>
        have hquotient := hexact.div hpower
        rw [hvalue, hten] at hquotient
        simpa [div_eq_mul_inv] using hquotient
    | false =>
        have hproduct := hexact.mul hpower (by
          exact hnormal.trans (Nat.le_mul_of_pos_right _ hpower.pos))
        rw [hvalue, hten] at hproduct
        simpa using hproduct
  · cases s with
    | true =>
        have hexponent : Int.negOfNat e = -(e : ℤ) := Int.negOfNat_eq
        show Holds (.ofModel (Float.Model.ofScientific m (Int.negOfNat e))) _ _
        rw [hexponent]
        exact holds_modelOfScientific hm (-e)
    | false => exact holds_modelOfScientific hm e

theorem value_eq (t : Text) : value t = Nat.ofDigitChars 10 t 0 := rfl

theorem value_append (t u : Text) : value (t ++ u) = 10 ^ u.length * value t + value u := by
  rw [value_eq, value_eq, value_eq, Nat.ofDigitChars_append, Nat.ofDigitChars_eq_ofDigitChars_zero]

theorem value_lt : ∀ {t : Text}, (∀ c ∈ t, c.isDigit = true) → value t < 10 ^ t.length
  | [], _ => by decide
  | c :: t, h => by
      obtain ⟨hc, ht⟩ := List.forall_mem_cons.mp h
      have hdigit : value [c] < 10 := by
        have hnine : c.toNat ≤ 57 := (Char.isDigit_iff_toNat.mp hc).2
        show 10 * 0 + (c.toNat - 48) < 10
        omega
      have hrest := value_lt ht
      rw [← List.singleton_append, value_append, List.length_append, List.length_singleton, pow_add,
        pow_one]
      nlinarith

/-- Digits are read by rounding what they spell, also where the magnitude alone decides. -/
theorem holds_toFloat {digits fraction : Text} (hdigits : ∀ c ∈ digits, c.isDigit = true)
    (hfraction : ∀ c ∈ fraction, c.isDigit = true) (exponent : ℤ) :
    Holds (toFloat digits fraction exponent) .positive
      (value (digits ++ fraction) * 10 ^ (exponent - fraction.length)) := by
  have hvalue : value (digits ++ fraction) < 10 ^ (digits.length + fraction.length) := by
    rw [← List.length_append]
    exact value_lt fun c hc => (List.mem_append.mp hc).elim (hdigits c) (hfraction c)
  unfold toFloat
  generalize value (digits ++ fraction) = m at hvalue
  generalize exponent - fraction.length = scale
  simp only
  split
  · rename_i hm
    rw [hm, Nat.cast_zero, zero_mul]
    exact .of_zero le_rfl (zpow_pos two_pos _).le rfl
  · rename_i hm
    have hpos := Nat.pos_of_ne_zero hm
    have hone : (1 : ℚ) ≤ m := by exact_mod_cast hpos
    split
    · rename_i hgreat
      refine .of_infinity ?_ rfl
      calc limit ≤ 2 ^ (1024 : ℤ) := limit_lt.le
        _ ≤ 10 ^ scale := two_zpow_le_ten_zpow (by omega) (by omega)
        _ ≤ m * 10 ^ scale := le_mul_of_one_le_left (by positivity) hone
    split
    · rename_i hsmall
      refine .of_zero (by positivity) ?_ rfl
      have hdigits : (m : ℚ) ≤ 10 ^ (digits.length + fraction.length : ℤ) := by
        exact_mod_cast hvalue.le
      calc (m * 10 ^ scale : ℚ)
          ≤ 10 ^ (digits.length + fraction.length : ℤ) * 10 ^ scale :=
            mul_le_mul_of_nonneg_right hdigits (by positivity)
        _ = 10 ^ (digits.length + fraction.length + scale : ℤ) :=
            (zpow_add₀ (by norm_num) _ _).symm
        _ ≤ 2 ^ (-1075 : ℤ) := ten_zpow_le_two_zpow (by omega) (by omega)
    · have hholds := holds_ofScientific hpos (scale < 0) scale.natAbs
      have hscale :
          (if decide (scale < 0) then -(scale.natAbs : ℤ) else scale.natAbs) = scale := by
        simp only [decide_eq_true_eq]
        omega
      rwa [hscale] at hholds

end Cascade.Decimal
