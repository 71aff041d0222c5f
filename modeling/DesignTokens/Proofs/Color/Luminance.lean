import DesignTokens.Color.Contrast
import DesignTokens.Proofs.Color.Range

/-!
# Luminance and the contrast with black and white

The linear light of a channel is computed with a power function. Whatever this function is, as long as
it keeps the numbers from 0 to 1 in their range and one as it is, the luminance of a color in range is
a number from 0 to 1, of black it is 0 and of white 1.

For such luminances the contrast ratio is a number. On a background whose luminance is above the pivot
black has a ratio of 4.5, and on any other one white has it.
-/

namespace DesignTokens.Color

open Binary64

/-- A power function that can be used for linear light. -/
structure UnitPower (power : Float → Float → Float) : Prop where
  /-- Numbers from 0 to 1 stay in their range. -/
  unit {x : Float} : Lies 0 1 x → Lies 0 1 (power x 2.4)
  /-- One stays one. -/
  one : power 1 2.4 = 1

section Definitions

variable (power : Float → Float → Float)

/-- The linear light of a gamma-encoded channel by a power function. -/
def linearLightBy (x : Float) : Float :=
  if x ≤ 0.04045 then x / 12.92 else power ((x + 0.055) / 1.055) 2.4

/-- The relative luminance of a color by a power function. -/
def luminanceBy (c : Rgba) : Float :=
  0.2126 * linearLightBy power c.red + 0.7152 * linearLightBy power c.green +
    0.0722 * linearLightBy power c.blue

/-- The contrast ratio of two luminances. -/
def ratioOf (a b : Float) : Float :=
  if b ≤ a then (a + 0.05) / (b + 0.05) else (b + 0.05) / (a + 0.05)

theorem luminanceBy_pow : luminanceBy Float.pow = luminance := rfl

end Definitions

section Luminance

variable {power : Float → Float → Float} {x : Float} {c : Rgba}

theorem lies_slope : Lies 1 16 12.92 :=
  lies_of_view (m := 7273313398203351) (e := -49) (by decide) (by norm_num) (by norm_num)

theorem lies_shift : Lies (7926335344172073 / 2 ^ 57) (7926335344172073 / 2 ^ 57) 0.055 :=
  lies_of_view (m := 7926335344172073) (e := -57) (by decide) (by norm_num) (by norm_num)

theorem lies_scale : Lies (4751297606875873 / 2 ^ 52) (4751297606875873 / 2 ^ 52) 1.055 :=
  lies_of_view (m := 4751297606875873) (e := -52) (by decide) (by norm_num) (by norm_num)

theorem base_one : ((1 : Float) + 0.055) / 1.055 = 1 := by decide

/-- The base of the power is in range: it is one for one, and what is below one is so far below that the
sum is not rounded up past the scale. -/
theorem lies_base (h : Lies 0 1 x) : Lies 0 1 ((x + 0.055) / 1.055) := by
  obtain ⟨v, value, above, below⟩ := h
  rcases below.eq_or_lt with rfl | below
  · rw [add_eq_of_value? value value?_one one_pos, base_one]
    exact Rgba.lies_one
  · have next := (isDouble_of_value? value above).le_of_lt_one below
    have scale : IsDouble ((4751297606875873 : ℕ) / 2 ^ 52) :=
      isDouble_div_two_pow (by norm_num) (by norm_num)
    have sum : Lies 0 (4751297606875873 / 2 ^ 52) (x + 0.055) :=
      Lies.add ⟨v, value, above, next⟩ lies_shift isDouble_zero scale le_rfl (by norm_num)
        (by norm_num) (by norm_num)
    exact sum.div lies_scale isDouble_zero isDouble_one le_rfl (by norm_num) (by norm_num)
      (by norm_num)

theorem lies_linearLightBy (hpower : UnitPower power) (h : Lies 0 1 x) :
    Lies 0 1 (linearLightBy power x) := by
  rw [linearLightBy]
  split
  · exact h.div lies_slope isDouble_zero isDouble_one le_rfl (by norm_num) (by norm_num) (by norm_num)
  · exact hpower.unit (lies_base h)

theorem lies_red : Lies 0 (7659722246231740 / 2 ^ 55) 0.2126 :=
  lies_of_view (m := 7659722246231740) (e := -55) (by decide) (by norm_num) (by norm_num)

theorem lies_green : Lies 0 (6441948906990757 / 2 ^ 53) 0.7152 :=
  lies_of_view (m := 6441948906990757) (e := -53) (by decide) (by norm_num) (by norm_num)

theorem lies_blue : Lies 0 (5202558289538397 / 2 ^ 56) 0.0722 :=
  lies_of_view (m := 5202558289538397) (e := -56) (by decide) (by norm_num) (by norm_num)

/-- A part of a weight is at most the weight. -/
theorem lies_weighted {weight : Float} {m k : ℕ} (hw : Lies 0 (m / 2 ^ k) weight) (hm : m < 2 ^ 53)
    (hk : k ≤ 1074) (h : Lies 0 1 x) : Lies 0 (m / 2 ^ k) (weight * x) :=
  hw.mul h isDouble_zero (isDouble_div_two_pow hm hk) le_rfl le_rfl (by norm_num) (by rw [mul_one])

/-- The luminance of a color in range is a number from 0 to 1. -/
theorem lies_luminanceBy (hpower : UnitPower power) (h : c.InGamut) :
    Lies 0 1 (luminanceBy power c) := by
  have red := lies_weighted (m := 7659722246231740) lies_red (by norm_num) (by norm_num)
    (lies_linearLightBy hpower h.red)
  have green := lies_weighted (m := 6441948906990757) lies_green (by norm_num) (by norm_num)
    (lies_linearLightBy hpower h.green)
  have blue := lies_weighted (m := 5202558289538397) lies_blue (by norm_num) (by norm_num)
    (lies_linearLightBy hpower h.blue)
  -- the two larger weights have an exact sum, and all three miss one by less than half a bit
  have both : IsDouble ((8356879468548692 : ℕ) / 2 ^ 53) :=
    isDouble_div_two_pow (by norm_num) (by norm_num)
  exact (red.add green isDouble_zero both le_rfl le_rfl (by norm_num) (by norm_num)).add blue
    isDouble_zero isDouble_one le_rfl le_rfl (by norm_num) (by norm_num)

theorem luminanceBy_black (power : Float → Float → Float) : luminanceBy power .black = 0 := by
  have dark : linearLightBy power 0 = 0 / 12.92 := if_pos (by decide)
  have sum : (0.2126 * (0 / 12.92) + 0.7152 * (0 / 12.92) + 0.0722 * (0 / 12.92) : Float) = 0 := by
    decide +kernel
  rw [luminanceBy, Rgba.black, dark, sum]

theorem luminanceBy_white (hpower : UnitPower power) : luminanceBy power .white = 1 := by
  have light : linearLightBy power 1 = 1 := by
    rw [linearLightBy, if_neg (by decide), base_one, hpower.one]
  have sum : (0.2126 * 1 + 0.7152 * 1 + 0.0722 * 1 : Float) = 1 := by decide +kernel
  rw [luminanceBy, Rgba.white, light, sum]

end Luminance

section Ratio

variable {a b : Float}

/-! The pivot leaves room on both sides, so multiples of `2 ^ -12` bound its constants well enough. -/

theorem lies_offset : Lies (204 / 2 ^ 12) (205 / 2 ^ 12) 0.05 :=
  lies_of_view (m := 7205759403792794) (e := -57) (by decide) (by norm_num) (by norm_num)

theorem lies_pivot : Lies (733 / 2 ^ 12) (734 / 2 ^ 12) pivot :=
  lies_of_view (m := 6449154666394550) (e := -55) (by decide) (by norm_num) (by norm_num)

theorem lies_required : Lies (9 / 2) (9 / 2) 4.5 :=
  lies_of_view (m := 5066549580791808) (e := -50) (by decide) (by norm_num) (by norm_num)

/-- A luminance that the offset was added to. -/
theorem lies_raised (h : Lies 0 1 a) : Lies (204 / 2 ^ 12) 2 (a + 0.05) :=
  h.add lies_offset (isDouble_div_two_pow (m := 204) (by norm_num) (by norm_num)) isDouble_two le_rfl
    (by norm_num) (by norm_num) (by norm_num)

/-- The contrast ratio of two luminances is a number. -/
theorem isNaN_ratioOf (ha : Lies 0 1 a) (hb : Lies 0 1 b) : (ratioOf a b).isNaN = false := by
  have quotient {x y : Float} (hx : Lies 0 1 x) (hy : Lies 0 1 y) :
      Lies 0 64 ((x + 0.05) / (y + 0.05)) :=
    (lies_raised hx).div (lies_raised hy) isDouble_zero (isDouble_natCast (m := 64) (by norm_num))
      (by norm_num) (by norm_num) (by norm_num) (by norm_num)
  rw [ratioOf]
  split
  · exact (quotient ha hb).isNaN
  · exact (quotient hb ha).isNaN

/-- A color has the ratio one to itself. -/
theorem lies_ratioOf_self (h : Lies 0 1 a) : Lies 1 1 (ratioOf a a) := by
  obtain ⟨v, raised, above, -⟩ := lies_raised h
  have pos : 0 < v := above.trans_lt' (by norm_num)
  have same : Lies v v (a + 0.05) := ⟨v, raised, le_rfl, le_rfl⟩
  rw [ratioOf, ite_self]
  exact same.div same isDouble_one isDouble_one pos.le pos (by rw [div_self pos.ne'])
    (by rw [div_self pos.ne'])

theorem required_le_div {c d low high : ℚ} (ha : Lies low high a) (hb : Lies c d b) (hl : 0 ≤ low)
    (hc : 0 < c) (least : 9 / 2 ≤ low / d) (most : high / c ≤ 64) : 4.5 ≤ a / b :=
  lies_required.le (ha.div hb (isDouble_div_two_pow (m := 9) (k := 1) (by norm_num) (by norm_num))
    (isDouble_natCast (m := 64) (by norm_num)) hl hc least most) le_rfl

/-- On a background above the pivot black has the ratio that is required of text. -/
theorem required_le_ratioOf_zero (h : Lies 0 1 b) (light : pivot < b) : 4.5 ≤ ratioOf 0 b := by
  obtain ⟨p, hp, least, -⟩ := lies_pivot
  obtain ⟨q, hq, -, below⟩ := h
  have beyond : p < q := (lt_iff hp hq).1 light
  have lighter : ¬ b ≤ 0 := fun dark => by
    have := (value?_le_iff hq value?_zero).1 dark
    linarith
  have background : Lies (937 / 2 ^ 12) 2 (b + 0.05) :=
    Lies.add ⟨q, hq, least.trans beyond.le, below⟩ lies_offset
      (isDouble_div_two_pow (m := 937) (by norm_num) (by norm_num)) isDouble_two (by norm_num)
      (by norm_num) (by norm_num) (by norm_num)
  have black : Lies (204 / 2 ^ 12) (205 / 2 ^ 12) ((0 : Float) + 0.05) :=
    Lies.add ⟨0, value?_zero, le_rfl, le_rfl⟩ lies_offset
      (isDouble_div_two_pow (m := 204) (by norm_num) (by norm_num))
      (isDouble_div_two_pow (m := 205) (by norm_num) (by norm_num)) le_rfl (by norm_num) (by norm_num)
      (by norm_num)
  rw [ratioOf, if_neg lighter]
  exact required_le_div background black (by norm_num) (by norm_num) (by norm_num) (by norm_num)

/-- On any other background white has the ratio that is required of text. -/
theorem required_le_ratioOf_one (h : Lies 0 1 b) (dark : ¬ pivot < b) : 4.5 ≤ ratioOf 1 b := by
  obtain ⟨p, hp, -, most⟩ := lies_pivot
  obtain ⟨q, hq, above, below⟩ := h
  have within : q ≤ p := not_lt.1 fun beyond => dark ((lt_iff hp hq).2 beyond)
  have darker : b ≤ 1 := (value?_le_iff hq value?_one).2 below
  have background : Lies (204 / 2 ^ 12) (939 / 2 ^ 12) (b + 0.05) :=
    Lies.add ⟨q, hq, above, within.trans most⟩ lies_offset
      (isDouble_div_two_pow (m := 204) (by norm_num) (by norm_num))
      (isDouble_div_two_pow (m := 939) (by norm_num) (by norm_num)) le_rfl (by norm_num) (by norm_num)
      (by norm_num)
  have white : Lies (4300 / 2 ^ 12) 2 ((1 : Float) + 0.05) :=
    Lies.add ⟨1, value?_one, le_rfl, le_rfl⟩ lies_offset
      (isDouble_div_two_pow (m := 4300) (by norm_num) (by norm_num)) isDouble_two (by norm_num)
      (by norm_num) (by norm_num) (by norm_num)
  rw [ratioOf, if_pos darker]
  exact required_le_div white background (by norm_num) (by norm_num) (by norm_num) (by norm_num)

end Ratio

end DesignTokens.Color
