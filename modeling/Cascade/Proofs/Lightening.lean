import Cascade.Value.Color
import Mathlib.Data.Rat.Floor
import Mathlib.Tactic.FieldSimp
import Mathlib.Tactic.IntervalCases
import Mathlib.Tactic.Linarith
import Mathlib.Tactic.Positivity
import Mathlib.Tactic.Ring

/-!
# Lightening and darkening

With exact numbers in the place of floating-point ones, moving the value of a color scales its
channels (`Rgb.adjustValue_exact`).

On the way from the hue to the channels the circle is walked through in sixths. In each of them
one channel is the highest, one the lowest and one goes from one to the other; `wheel` says so
for the whole circle at once. The way back has the same sixths: a color stands where the wheel
has its channels (`Rgb.exists_onWheel`).
-/

namespace Cascade

/-- Exact numbers. -/
instance : Scalar ℚ where
  ofNat n := n
  less a b := decide (a < b)
  same a b := decide (a = b)
  greater := max
  lesser := min
  floor x := ⌊x⌋

namespace Scalar

variable {x : ℚ}

theorem clamp_eq {low high : ℚ} (h : low ≤ high) :
    clamp low high x = max low (min high x) := by
  simp only [clamp, less, decide_eq_true_eq]
  split
  · rename_i hx
    rw [min_eq_right (hx.le.trans h), max_eq_left hx.le]
  · rename_i hlow
    split
    · rename_i hx
      rw [min_eq_left hx.le, max_eq_right h]
    · rename_i hhigh
      rw [min_eq_right (not_lt.mp hhigh), max_eq_right (not_lt.mp hlow)]

theorem turn_eq (h : x < 360) : turn x = if x < 0 then x + 360 else x := by
  have hturned : ((if x < 0 then x + 360 else x) : ℚ) < 360 := by
    split <;> linarith
  simp only [turn, less, ofNat, decide_eq_true_eq]
  exact if_pos hturned

end Scalar

/-! ## The wheel of hues -/

/-- A part of one whole. -/
def share (x : ℚ) : ℚ := max 0 (min 1 x)

/-- How far each channel is from the lowest to the highest, at a hue in sixths of the circle. -/
def wheel (t : ℚ) : Rgb ℚ :=
  ⟨share (max (2 - t) (t - 4)), share (min t (4 - t)), share (min (t - 2) (6 - t))⟩

section

variable {x : ℚ}

theorem share_of_nonpos (h : x ≤ 0) : share x = 0 :=
  max_eq_left ((min_le_right 1 x).trans h)

theorem share_of_one_le (h : 1 ≤ x) : share x = 1 := by
  rw [share, min_eq_left h, max_eq_right zero_le_one]

theorem share_eq {y : ℚ} (h : y = x) (h0 : 0 ≤ x) (h1 : x ≤ 1) : share y = x := by
  rw [share, h, min_eq_right h1, max_eq_right h0]

variable (h0 : 0 ≤ x) (h1 : x ≤ 1)

include h0 h1

theorem wheel_after_red : wheel x = ⟨1, x, 0⟩ := by
  rw [wheel, max_eq_left (by linarith), share_of_one_le (by linarith), min_eq_left (by linarith),
    share_eq rfl h0 h1, min_eq_left (by linarith), share_of_nonpos (by linarith)]

theorem wheel_before_green : wheel (2 - x) = ⟨x, 1, 0⟩ := by
  rw [wheel, max_eq_left (by linarith), share_eq (by ring) h0 h1, min_eq_left (by linarith),
    share_of_one_le (by linarith), min_eq_left (by linarith), share_of_nonpos (by linarith)]

theorem wheel_after_green : wheel (2 + x) = ⟨0, 1, x⟩ := by
  rw [wheel, share_of_nonpos (max_le (by linarith) (by linarith)),
    share_of_one_le (le_min (by linarith) (by linarith)), min_eq_left (by linarith),
    share_eq (by ring) h0 h1]

theorem wheel_before_blue : wheel (4 - x) = ⟨0, x, 1⟩ := by
  rw [wheel, share_of_nonpos (max_le (by linarith) (by linarith)), min_eq_right (by linarith),
    share_eq (by ring) h0 h1, share_of_one_le (le_min (by linarith) (by linarith))]

theorem wheel_after_blue : wheel (4 + x) = ⟨x, 0, 1⟩ := by
  rw [wheel, max_eq_right (by linarith), share_eq (by ring) h0 h1, min_eq_right (by linarith),
    share_of_nonpos (by linarith), share_of_one_le (le_min (by linarith) (by linarith))]

theorem wheel_before_red : wheel (6 - x) = ⟨1, 0, x⟩ := by
  rw [wheel, max_eq_right (by linarith), share_of_one_le (by linarith), min_eq_right (by linarith),
    share_of_nonpos (by linarith), min_eq_right (by linarith), share_eq (by ring) h0 h1]

end

/-! ## From the hue to the channels -/

open Scalar (same floor ofNat greater lesser)

namespace Hsv

/-- The channel that is so far from the lowest to the highest. -/
def channel (c : Hsv ℚ) (share : ℚ) : ℚ :=
  c.value / 100 * 255 * (1 - c.saturation / 100 * (1 - share))

variable (c : Hsv ℚ)

theorem channel_one : c.channel 1 = c.value / 100 * 255 := by
  rw [channel]
  ring

theorem channel_zero : c.channel 0 = c.value / 100 * (1 - c.saturation / 100) * 255 := by
  rw [channel]
  ring

theorem channel_sub (fraction : ℚ) :
    c.channel (1 - fraction) = c.value / 100 * (1 - c.saturation / 100 * fraction) * 255 := by
  rw [channel]
  ring

/-- In every sixth of the circle the channels are those of the wheel. -/
theorem toRgb_sixth {n : Nat} {x : ℚ} (hn : n < 6) (h0 : 0 ≤ x) (h1 : x < 1)
    (hhue : c.hue = 60 * (n + x)) (hvalue : c.value ≠ 0) (hsaturation : c.saturation ≠ 0) :
    c.toRgb = ⟨c.channel (wheel (n + x)).red, c.channel (wheel (n + x)).green,
      c.channel (wheel (n + x)).blue⟩ := by
  have hn' : (n : ℚ) + 1 ≤ 6 := by exact_mod_cast hn
  have hnonneg : (0 : ℚ) ≤ n := n.cast_nonneg
  have hsixth : Scalar.turn c.hue / 60 = n + x := by
    rw [Scalar.turn_eq (by linarith), if_neg (by linarith), hhue,
      mul_div_cancel_left₀ _ (by norm_num)]
  have hfloor : ⌊(n : ℚ) + x⌋ = n := by
    rw [Int.floor_eq_iff]
    exact ⟨by push_cast; linarith, by push_cast; linarith⟩
  simp only [toRgb, same, floor, ofNat, decide_eq_true_eq, Nat.cast_zero, Nat.cast_one,
    Nat.cast_ofNat, if_neg hvalue, if_neg hsaturation, hsixth, hfloor, Int.toNat_natCast,
    add_sub_cancel_left, ← channel_one, ← channel_zero, ← channel_sub]
  have hrising : 1 - (1 - x) = x := sub_sub_cancel 1 x
  have h0' : 0 ≤ 1 - x := sub_nonneg.mpr h1.le
  have h1' : 1 - x ≤ 1 := sub_le_self 1 h0
  interval_cases n
  · have hwheel : wheel ((0 : ℕ) + x) = _ := (congrArg wheel (by simp)).trans
      (wheel_after_red h0 h1.le)
    rw [hwheel]
    show (⟨_, c.channel (1 - (1 - x)), _⟩ : Rgb ℚ) = _
    rw [hrising]
  · have hwheel : wheel ((1 : ℕ) + x) = _ := (congrArg wheel (by push_cast; ring)).trans
      (wheel_before_green h0' h1')
    rw [hwheel]
    rfl
  · have hwheel : wheel ((2 : ℕ) + x) = _ := wheel_after_green h0 h1.le
    rw [hwheel]
    show (⟨_, _, c.channel (1 - (1 - x))⟩ : Rgb ℚ) = _
    rw [hrising]
  · have hwheel : wheel ((3 : ℕ) + x) = _ := (congrArg wheel (by push_cast; ring)).trans
      (wheel_before_blue h0' h1')
    rw [hwheel]
    rfl
  · have hwheel : wheel ((4 : ℕ) + x) = _ := wheel_after_blue h0 h1.le
    rw [hwheel]
    show (⟨c.channel (1 - (1 - x)), _, _⟩ : Rgb ℚ) = _
    rw [hrising]
  · have hwheel : wheel ((5 : ℕ) + x) = _ := (congrArg wheel (by push_cast; ring)).trans
      (wheel_before_red h0' h1')
    rw [hwheel]
    rfl

theorem toRgb_eq {c : Hsv ℚ} (h0 : 0 ≤ c.hue) (h360 : c.hue < 360) :
    c.toRgb = ⟨c.channel (wheel (c.hue / 60)).red, c.channel (wheel (c.hue / 60)).green,
      c.channel (wheel (c.hue / 60)).blue⟩ := by
  by_cases hvalue : c.value = 0
  · have hchannel (share : ℚ) : c.channel share = 0 := by
      rw [channel, hvalue]
      ring
    simp only [toRgb, same, ofNat, decide_eq_true_eq, Nat.cast_zero, if_pos hvalue, hchannel]
  by_cases hsaturation : c.saturation = 0
  · have hchannel (share : ℚ) : c.channel share = c.value / 100 * 255 := by
      rw [channel, hsaturation]
      ring
    simp only [toRgb, same, ofNat, decide_eq_true_eq, Nat.cast_zero, Nat.cast_ofNat, if_neg hvalue,
      if_pos hsaturation, hchannel]
  have hhue : c.hue = 60 * (⌊c.hue / 60⌋₊ + Int.fract (c.hue / 60)) := by
    rw [natCast_floor_eq_intCast_floor (by positivity), Int.floor_add_fract]
    ring
  have hn : ⌊c.hue / 60⌋₊ < 6 := by
    rw [Nat.floor_lt (by positivity)]
    push_cast
    linarith
  have hsixth : ⌊c.hue / 60⌋₊ + Int.fract (c.hue / 60) = c.hue / 60 := by linarith
  have h := c.toRgb_sixth hn (Int.fract_nonneg _) (Int.fract_lt_one _) hhue hvalue hsaturation
  rwa [hsixth] at h

end Hsv

/-! ## From the channels to the hue -/

namespace Rgb

/-- Every channel is from 0 to 255. -/
structure InRange (c : Rgb ℚ) : Prop where
  red : 0 ≤ c.red ∧ c.red ≤ 255
  green : 0 ≤ c.green ∧ c.green ≤ 255
  blue : 0 ≤ c.blue ∧ c.blue ≤ 255

def highest (c : Rgb ℚ) : ℚ := max (max c.red c.green) c.blue

def lowest (c : Rgb ℚ) : ℚ := min (min c.red c.green) c.blue

/-- The hue in sixths of the circle, which may come before its beginning. -/
def sixths (c : Rgb ℚ) : ℚ :=
  if c.highest = c.red then (c.green - c.blue) / (c.highest - c.lowest)
  else if c.highest = c.green then (c.blue - c.red) / (c.highest - c.lowest) + 2
  else (c.red - c.green) / (c.highest - c.lowest) + 4

variable (c : Rgb ℚ)

theorem toHsv_eq : c.toHsv =
    if c.highest = c.lowest then ⟨0, 0, c.highest / 255 * 100⟩
    else ⟨Scalar.turn (c.sixths * 60), (c.highest - c.lowest) / c.highest * 100,
      c.highest / 255 * 100⟩ := by
  have hmax : max (max (c.red / 255) (c.green / 255)) (c.blue / 255) = c.highest / 255 := by
    rw [max_div_div_right (by norm_num), max_div_div_right (by norm_num), highest]
  have hmin : min (min (c.red / 255) (c.green / 255)) (c.blue / 255) = c.lowest / 255 := by
    rw [min_div_div_right (by norm_num), min_div_div_right (by norm_num), lowest]
  have h255 : (255 : ℚ) ≠ 0 := by norm_num
  simp only [toHsv, same, ofNat, greater, lesser, decide_eq_true_eq, Nat.cast_zero, Nat.cast_ofNat,
    hmax, hmin, ← sub_div, div_eq_zero_iff, or_iff_left h255, sub_eq_zero,
    div_div_div_cancel_right₀ h255, div_left_inj' h255, sixths]

/-- How far a channel is from the lowest to the highest. -/
def part (x : ℚ) : ℚ := (x - c.lowest) / (c.highest - c.lowest)

theorem red_le : c.red ≤ c.highest := (le_max_left _ _).trans (le_max_left _ _)

theorem green_le : c.green ≤ c.highest := (le_max_right _ _).trans (le_max_left _ _)

theorem blue_le : c.blue ≤ c.highest := le_max_right _ _

theorem le_red : c.lowest ≤ c.red := (min_le_left _ _).trans (min_le_left _ _)

theorem le_green : c.lowest ≤ c.green := (min_le_left _ _).trans (min_le_right _ _)

theorem le_blue : c.lowest ≤ c.blue := min_le_right _ _

variable {c} in
theorem lowest_eq {x : ℚ} (hx : c.lowest ≤ x) (hred : x ≤ c.red) (hgreen : x ≤ c.green)
    (hblue : x ≤ c.blue) : c.lowest = x :=
  le_antisymm hx (le_min (le_min hred hgreen) hblue)

theorem part_lowest : c.part c.lowest = 0 := by
  rw [part, sub_self, zero_div]

section

variable {c} (h : c.lowest < c.highest)

include h

theorem part_highest : c.part c.highest = 1 := div_self (sub_pos.mpr h).ne'

theorem part_nonneg {x : ℚ} (hx : c.lowest ≤ x) : 0 ≤ c.part x :=
  div_nonneg (sub_nonneg.mpr hx) (sub_pos.mpr h).le

theorem part_le_one {x : ℚ} (hx : x ≤ c.highest) : c.part x ≤ 1 :=
  (div_le_one (sub_pos.mpr h)).mpr (sub_le_sub_right hx _)

end

/-- The hue is that of a place on the wheel which has the channels of the color. -/
structure OnWheel (c : Rgb ℚ) (t : ℚ) : Prop where
  nonneg : 0 ≤ t
  lt_six : t < 6
  hue : c.toHsv.hue = 60 * t
  wheel : wheel t = ⟨c.part c.red, c.part c.green, c.part c.blue⟩

section

variable {c} (h : c.lowest < c.highest)

include h

theorem OnWheel.of_sixths {t : ℚ} (h0 : 0 ≤ t) (h6 : t < 6) (hsixths : c.sixths = t)
    (hwheel : Cascade.wheel t = ⟨c.part c.red, c.part c.green, c.part c.blue⟩) : c.OnWheel t where
  nonneg := h0
  lt_six := h6
  hue := by
    rw [toHsv_eq, if_neg h.ne', hsixths, Scalar.turn_eq (by linarith), if_neg (by linarith),
      mul_comm]
  wheel := hwheel

theorem exists_onWheel_red (hred : c.highest = c.red) : ∃ t, c.OnWheel t := by
  have hone := part_highest h
  have hzero := c.part_lowest
  rcases le_or_gt c.blue c.green with hle | hlt
  · have hlow := lowest_eq c.le_blue (hred ▸ c.blue_le) hle le_rfl
    have hg0 := part_nonneg h c.le_green
    have hg1 := part_le_one h c.green_le
    have hsixths : c.sixths = c.part c.green := by rw [sixths, if_pos hred, part, hlow]
    refine ⟨c.part c.green, .of_sixths h hg0 (by linarith) hsixths ?_⟩
    rw [wheel_after_red hg0 hg1, ← hred, ← hlow, hone, hzero]
  -- A hue below zero comes around from the end of the circle.
  · have hlow := lowest_eq c.le_green (hred ▸ c.green_le) le_rfl hlt.le
    have hb1 := part_le_one h c.blue_le
    have hsixths : c.sixths = -c.part c.blue := by
      rw [sixths, if_pos hred, part, hlow, ← neg_div, neg_sub]
    have hpos : 0 < c.part c.blue := div_pos (sub_pos.mpr (hlow ▸ hlt)) (sub_pos.mpr h)
    refine ⟨6 - c.part c.blue, by linarith, by linarith, ?_, ?_⟩
    · rw [toHsv_eq, if_neg h.ne', hsixths, Scalar.turn_eq (by linarith), if_pos (by linarith)]
      ring
    · rw [wheel_before_red hpos.le hb1, ← hred, ← hlow, hone, hzero]

theorem exists_onWheel_green (hred : c.highest ≠ c.red) (hgreen : c.highest = c.green) :
    ∃ t, c.OnWheel t := by
  have hone := part_highest h
  have hzero := c.part_lowest
  rcases le_total c.red c.blue with hle | hle
  · have hlow := lowest_eq c.le_red le_rfl (hgreen ▸ c.red_le) hle
    have hb0 := part_nonneg h c.le_blue
    have hb1 := part_le_one h c.blue_le
    have hsixths : c.sixths = 2 + c.part c.blue := by
      rw [sixths, if_neg hred, if_pos hgreen, part, hlow, add_comm]
    refine ⟨2 + c.part c.blue, .of_sixths h (by linarith) (by linarith) hsixths ?_⟩
    rw [wheel_after_green hb0 hb1, ← hgreen, ← hlow, hone, hzero]
  · have hlow := lowest_eq c.le_blue hle (hgreen ▸ c.blue_le) le_rfl
    have hr0 := part_nonneg h c.le_red
    have hr1 := part_le_one h c.red_le
    have hsixths : c.sixths = 2 - c.part c.red := by
      rw [sixths, if_neg hred, if_pos hgreen, part, hlow]
      ring
    refine ⟨2 - c.part c.red, .of_sixths h (by linarith) (by linarith) hsixths ?_⟩
    rw [wheel_before_green hr0 hr1, ← hgreen, ← hlow, hone, hzero]

theorem exists_onWheel_blue (hred : c.highest ≠ c.red) (hgreen : c.highest ≠ c.green)
    (hblue : c.highest = c.blue) : ∃ t, c.OnWheel t := by
  have hone := part_highest h
  have hzero := c.part_lowest
  rcases le_total c.green c.red with hle | hle
  · have hlow := lowest_eq c.le_green hle le_rfl (hblue ▸ c.green_le)
    have hr0 := part_nonneg h c.le_red
    have hr1 := part_le_one h c.red_le
    have hsixths : c.sixths = 4 + c.part c.red := by
      rw [sixths, if_neg hred, if_neg hgreen, part, hlow, add_comm]
    refine ⟨4 + c.part c.red, .of_sixths h (by linarith) (by linarith) hsixths ?_⟩
    rw [wheel_after_blue hr0 hr1, ← hblue, ← hlow, hone, hzero]
  · have hlow := lowest_eq c.le_red le_rfl hle (hblue ▸ c.red_le)
    have hg0 := part_nonneg h c.le_green
    have hg1 := part_le_one h c.green_le
    have hsixths : c.sixths = 4 - c.part c.green := by
      rw [sixths, if_neg hred, if_neg hgreen, part, hlow]
      ring
    refine ⟨4 - c.part c.green, .of_sixths h (by linarith) (by linarith) hsixths ?_⟩
    rw [wheel_before_blue hg0 hg1, ← hblue, ← hlow, hone, hzero]

/-- A color with a hue stands on the wheel where its channels are. -/
theorem exists_onWheel : ∃ t, c.OnWheel t := by
  by_cases hred : c.highest = c.red
  · exact exists_onWheel_red h hred
  by_cases hgreen : c.highest = c.green
  · exact exists_onWheel_green h hred hgreen
  · refine exists_onWheel_blue h hred hgreen ?_
    refine (max_choice (max c.red c.green) c.blue).resolve_left fun hmax => ?_
    rcases max_choice c.red c.green with hother | hother
    · exact hred (hmax.trans hother)
    · exact hgreen (hmax.trans hother)

end

theorem lowest_le_highest : c.lowest ≤ c.highest := c.le_red.trans c.red_le

theorem toHsv_value : c.toHsv.value = c.highest / 255 * 100 := by
  rw [toHsv_eq]
  split <;> rfl

theorem hue_bounds : 0 ≤ c.toHsv.hue ∧ c.toHsv.hue < 360 := by
  rcases c.lowest_le_highest.eq_or_lt with heq | hlt
  · rw [toHsv_eq, if_pos heq.symm]
    norm_num
  · obtain ⟨t, h0, h6, hhue, -⟩ := exists_onWheel hlt
    rw [hhue]
    exact ⟨by linarith, by linarith⟩

section

variable {c} (h : c.InRange)

include h

theorem lowest_nonneg : 0 ≤ c.lowest := le_min (le_min h.red.1 h.green.1) h.blue.1

theorem highest_le : c.highest ≤ 255 := max_le (max_le h.red.2 h.green.2) h.blue.2

theorem value_bounds : 0 ≤ c.toHsv.value ∧ c.toHsv.value ≤ 100 := by
  have h0 := (lowest_nonneg h).trans c.lowest_le_highest
  have h255 := highest_le h
  rw [toHsv_value]
  exact ⟨by linarith, by linarith⟩

theorem saturation_bounds : 0 ≤ c.toHsv.saturation ∧ c.toHsv.saturation ≤ 100 := by
  rcases c.lowest_le_highest.eq_or_lt with heq | hlt
  · rw [toHsv_eq, if_pos heq.symm]
    norm_num
  · have h0 := lowest_nonneg h
    have hpos : 0 < c.highest := h0.trans_lt hlt
    have hnonneg : 0 ≤ (c.highest - c.lowest) / c.highest := div_nonneg (by linarith) hpos.le
    have hle : (c.highest - c.lowest) / c.highest ≤ 1 := (div_le_one hpos).mpr (by linarith)
    rw [toHsv_eq, if_neg hlt.ne']
    exact ⟨by linarith, by linarith⟩

/-- Every part of the way comes out as the channel that goes it. -/
theorem channel_part (hlt : c.lowest < c.highest) (x : ℚ) : c.toHsv.channel (c.part x) = x := by
  have hd : c.highest - c.lowest ≠ 0 := (sub_pos.mpr hlt).ne'
  have hhigh : c.highest ≠ 0 := ((lowest_nonneg h).trans_lt hlt).ne'
  rw [toHsv_eq, if_neg hlt.ne', Hsv.channel, part]
  field_simp
  ring

/-- Hue, saturation and value determine the channels. -/
theorem toRgb_toHsv : c.toHsv.toRgb = c := by
  rw [Hsv.toRgb_eq c.hue_bounds.1 c.hue_bounds.2]
  rcases c.lowest_le_highest.eq_or_lt with heq | hlt
  · have hchannel (share : ℚ) : c.toHsv.channel share = c.highest := by
      rw [toHsv_eq, if_pos heq.symm, Hsv.channel]
      ring
    simp only [hchannel]
    have hred := c.red_le.antisymm (heq ▸ c.le_red)
    have hgreen := c.green_le.antisymm (heq ▸ c.le_green)
    have hblue := c.blue_le.antisymm (heq ▸ c.le_blue)
    show Rgb.mk _ _ _ = Rgb.mk c.red c.green c.blue
    rw [hred, hgreen, hblue]
  · obtain ⟨t, -, -, hhue, hwheel⟩ := exists_onWheel hlt
    rw [hhue, mul_div_cancel_left₀ _ (by norm_num), hwheel, channel_part h hlt, channel_part h hlt,
      channel_part h hlt]

end

/-- All channels so many times as high. -/
def scale (k : ℚ) : Rgb ℚ := ⟨k * c.red, k * c.green, k * c.blue⟩

/-- The grey of a value in percent. -/
def grey (value : ℚ) : Rgb ℚ := ⟨value / 100 * 255, value / 100 * 255, value / 100 * 255⟩

theorem toHsv_grey (value : ℚ) : (grey value).toHsv = ⟨0, 0, value⟩ := by
  have hhigh : (grey value).highest = value / 100 * 255 := by
    rw [highest, grey, max_self, max_self]
  have hlow : (grey value).lowest = value / 100 * 255 := by
    rw [lowest, grey, min_self, min_self]
  have hvalue : value / 100 * 255 / 255 * 100 = value := by ring
  rw [toHsv_eq, hhigh, hlow, if_pos rfl, hvalue]

/-- Black is the only color without any value. -/
theorem toHsv_of_value {c : Rgb ℚ} (h : c.InRange) (hvalue : c.toHsv.value = 0) :
    c.toHsv = ⟨0, 0, 0⟩ := by
  have hhigh : c.highest = 0 := by
    rw [toHsv_value] at hvalue
    linarith
  have hlow : c.lowest = 0 := le_antisymm (hhigh ▸ c.lowest_le_highest) (lowest_nonneg h)
  rw [toHsv_eq, hhigh, hlow, if_pos rfl, zero_div, zero_mul]

end Rgb

/-! ## Another value -/

/-- A color of the same hue and saturation has channels as many times as high as its value is. -/
theorem Hsv.toRgb_scale {c : Hsv ℚ} (h0 : 0 ≤ c.hue) (h360 : c.hue < 360) (hvalue : c.value ≠ 0)
    (value : ℚ) : { c with value := value : Hsv ℚ }.toRgb = c.toRgb.scale (value / c.value) := by
  have hchannel (share : ℚ) : { c with value := value : Hsv ℚ }.channel share =
      value / c.value * c.channel share := by
    rw [channel, channel]
    field_simp
  rw [toRgb_eq h0 h360, toRgb_eq (c := { c with value := value : Hsv ℚ }) h0 h360, hchannel,
    hchannel, hchannel]
  rfl

namespace Rgb

theorem adjustValue_eq (c : Rgb ℚ) (amount : ℚ) : c.adjustValue amount =
    { c.toHsv with value := max 0 (min 100 (c.toHsv.value + amount)) : Hsv ℚ }.toRgb := by
  have hclamp : Scalar.clamp 0 100 (c.toHsv.value + amount) = _ := Scalar.clamp_eq (by norm_num)
  rw [← hclamp]
  rfl

theorem toRgb_grey (value : ℚ) : (⟨0, 0, value⟩ : Hsv ℚ).toRgb = grey value := by
  have hchannel (share : ℚ) : (⟨0, 0, value⟩ : Hsv ℚ).channel share = value / 100 * 255 := by
    rw [Hsv.channel]
    ring
  rw [Hsv.toRgb_eq le_rfl (by norm_num), hchannel, hchannel, hchannel]
  rfl

/-- Lightening and darkening scale a color to its new value, and turn black to grey. Hue,
saturation and value are within their bounds and determine the channels, and an alpha channel
is left alone. -/
theorem adjustValue_exact {c : Rgb ℚ} (h : c.InRange) :
    (0 ≤ c.toHsv.hue ∧ c.toHsv.hue < 360) ∧
    (0 ≤ c.toHsv.saturation ∧ c.toHsv.saturation ≤ 100) ∧
    (0 ≤ c.toHsv.value ∧ c.toHsv.value ≤ 100) ∧
    (∀ amount value, value = max 0 (min 100 (c.toHsv.value + amount)) →
      (0 < c.toHsv.value → c.adjustValue amount = c.scale (value / c.toHsv.value)) ∧
      (c.toHsv.value = 0 →
        c.adjustValue amount = grey value ∧ (c.adjustValue amount).toHsv = ⟨0, 0, value⟩)) ∧
    c.toHsv.toRgb = c ∧ c.adjustValue 0 = c ∧
    ∀ (d : Color) (amount : Float), (d.adjustValue amount).alpha = d.alpha := by
  have hback := toRgb_toHsv h
  have hbounds := value_bounds h
  refine ⟨c.hue_bounds, saturation_bounds h, hbounds, ?_, hback, ?_, fun _ _ => rfl⟩
  · rintro amount value rfl
    constructor
    · intro hpos
      rw [adjustValue_eq, Hsv.toRgb_scale c.hue_bounds.1 c.hue_bounds.2 hpos.ne', hback]
    · intro hzero
      have hgrey : c.adjustValue amount = grey (max 0 (min 100 (c.toHsv.value + amount))) := by
        rw [adjustValue_eq, toHsv_of_value h hzero, toRgb_grey]
      exact ⟨hgrey, by rw [hgrey, toHsv_grey]⟩
  · rw [adjustValue_eq, add_zero, min_eq_right hbounds.2, max_eq_right hbounds.1]
    exact hback

/-- A red is darkened by a fifth of its value. -/
theorem adjustValue_exact_red :
    (⟨255, 0, 128⟩ : Rgb ℚ).InRange ∧ (⟨255, 0, 128⟩ : Rgb ℚ).adjustValue (-20) =
      ⟨204, 0, 512 / 5⟩ := by
  have h : (⟨255, 0, 128⟩ : Rgb ℚ).InRange := ⟨by norm_num, by norm_num, by norm_num⟩
  have hvalue : (⟨255, 0, 128⟩ : Rgb ℚ).toHsv.value = 100 := by
    rw [toHsv_value, highest]
    norm_num
  obtain ⟨-, -, -, hadjust, -⟩ := adjustValue_exact h
  refine ⟨h, ((hadjust (-20) 80 (by rw [hvalue]; norm_num)).1 (by rw [hvalue]; norm_num)).trans ?_⟩
  rw [hvalue, scale]
  norm_num

end Rgb

end Cascade
