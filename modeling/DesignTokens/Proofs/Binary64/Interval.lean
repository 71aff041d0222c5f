import Mathlib
import DesignTokens.Proofs.Binary64.Arithmetic

/-!
# Intervals of doubles

A sum, a product and a quotient of numbers from some intervals lies between the least and the greatest
exact result, if these are rounded outwards to doubles: rounding takes no number past a double. So a
bound of a computation follows from bounds of what it is computed from, one operation at a time.

Only numbers that are not negative are added, multiplied and divided here. Both zeros are among them.
-/

namespace DesignTokens.Binary64

open Float.Model Float.Model.UnpackedFloat

/-- No double lies between a number and another one. -/
def Faithful (q v : ℚ) : Prop := ∀ b, IsDouble b → (q ≤ b → v ≤ b) ∧ (b ≤ q → b ≤ v)

/-- A double is a number between two others. -/
def Lies (low high : ℚ) (x : Float) : Prop := ∃ v, value? x = some v ∧ low ≤ v ∧ v ≤ high

section Order

variable {x y : Float} {a b c d p q : ℚ}

/-- Finite doubles are ordered as the numbers that they stand for. -/
theorem value?_le_iff (hp : value? x = some p) (hq : value? y = some q) : x ≤ y ↔ p ≤ q := by
  have compared := compare_eq (canonical x) (canonical y) hp hq
  show Float.le x y = true ↔ _
  rw [Float.le, decide_eq_true_iff]
  show (x.toModel.unpack.compare y.toModel.unpack).any (·.isLE) = true ↔ _
  rw [compared, Option.any_some, Ordering.isLE_iff_ne_gt, compare_gt_iff_gt, not_lt]

theorem Lies.le (hx : Lies a b x) (hy : Lies c d y) (h : b ≤ c) : x ≤ y := by
  obtain ⟨p, hp, -, below⟩ := hx
  obtain ⟨q, hq, above, -⟩ := hy
  exact (value?_le_iff hp hq).2 ((below.trans h).trans above)

/-- The bits of a double tell where it lies. -/
theorem lies_of_view {m : ℕ} {e : ℤ} (h : view x = .finite false m e) (above : a ≤ m * 2 ^ e)
    (below : m * 2 ^ e ≤ b) : Lies a b x :=
  ⟨m * 2 ^ e, value?_of_view h, above, below⟩

theorem Lies.isNaN (h : Lies a b x) : x.isNaN = false := by
  obtain ⟨v, value, -⟩ := h
  exact isNaN_of_value? value

end Order

section Faithful

variable {b q v : ℚ} {x : Float}

theorem natCast_le_of_lt {m : ℕ} (h : m < 2 ^ 53) : (m : ℚ) ≤ 2 ^ 53 - 1 := by
  have : (m : ℚ) + 1 ≤ 2 ^ 53 := by exact_mod_cast h
  linarith

theorem isDouble_natCast {m : ℕ} (hm : m < 2 ^ 53) : IsDouble m :=
  ⟨m, 0, hm, by norm_num, by norm_num, by rw [zpow_zero, mul_one]⟩

theorem isDouble_zero : IsDouble 0 := by exact_mod_cast isDouble_natCast (m := 0) (by norm_num)

theorem isDouble_one : IsDouble 1 := by exact_mod_cast isDouble_natCast (m := 1) (by norm_num)

theorem isDouble_two : IsDouble 2 := isDouble_natCast (m := 2) (by norm_num)

/-- A number of fifty-three bits over a power of two is a double. -/
theorem isDouble_div_two_pow {m k : ℕ} (hm : m < 2 ^ 53) (hk : k ≤ 1074) : IsDouble (m / 2 ^ k) :=
  ⟨m, -k, hm, by omega, by omega, by rw [zpow_neg, zpow_natCast, div_eq_mul_inv]⟩

/-- What is below one is at most the double before it. -/
theorem IsDouble.le_of_lt_one (h : IsDouble b) (below : b < 1) : b ≤ 1 - 1 / 2 ^ 53 := by
  obtain ⟨m, e, mantissa, -, -, rfl⟩ := h
  by_cases fine : -53 ≤ e
  · -- then it is a multiple of the last bit
    have shift : e = ((e + 53).toNat : ℤ) - (53 : ℕ) := by omega
    have scaled : (m : ℚ) * 2 ^ e = (m * 2 ^ (e + 53).toNat : ℕ) / 2 ^ 53 := by
      conv_lhs => rw [shift, zpow_sub₀ (by norm_num), zpow_natCast, zpow_natCast]
      push_cast
      ring
    rw [scaled, div_lt_one (by positivity)] at below
    have whole := natCast_le_of_lt (m := m * 2 ^ (e + 53).toNat) (by exact_mod_cast below)
    rw [scaled, div_le_iff₀ (by positivity)]
    linarith
  · have bits : (m : ℚ) ≤ 2 ^ 53 := by exact_mod_cast mantissa.le
    have scale : (2 : ℚ) ^ e ≤ 2 ^ (-54 : ℤ) := zpow_le_zpow_right₀ (by norm_num) (by omega)
    calc (m : ℚ) * 2 ^ e ≤ 2 ^ 53 * 2 ^ (-54 : ℤ) := by gcongr
      _ ≤ 1 - 1 / 2 ^ 53 := by norm_num

theorem IsDouble.le_largest (h : IsDouble b) : b ≤ largest := by
  obtain ⟨m, e, mantissa, -, greatest, rfl⟩ := h
  have bits := natCast_le_of_lt mantissa
  rw [largest]
  gcongr
  norm_num

theorem Faithful.refl (q : ℚ) : Faithful q q := fun _ _ => ⟨id, id⟩

/-- What is rounded to a multiple of a unit is not taken past a double: the unit divides every double
that is not too small, and these are multiples of it. -/
theorem Rounding.faithful (r : Rounding q) : Faithful q r.value := by
  rintro b ⟨m, e, mantissa, least, -, rfl⟩
  have bits : (m : ℚ) < 2 ^ 53 := by exact_mod_cast mantissa
  constructor
  · intro below
    exact r.value_le (r.exponent_le least (below.trans_lt (by gcongr))) below
  · intro above
    rcases le_or_gt r.exponent e with fine | coarse
    · exact r.le_value fine above
    · have full : 2 ^ 52 * 2 ^ r.exponent ≤ q := r.full.resolve_left (by omega)
      have scale : (2 : ℚ) ^ (e + 1) ≤ 2 ^ r.exponent := zpow_le_zpow_right₀ (by norm_num) (by omega)
      have reached : ((2 ^ 52 : ℕ) : ℚ) * 2 ^ r.exponent ≤ r.value :=
        r.le_value le_rfl (by exact_mod_cast full)
      calc (m : ℚ) * 2 ^ e ≤ 2 ^ 53 * 2 ^ e := by gcongr
        _ = 2 ^ 52 * 2 ^ (e + 1) := by rw [zpow_add_one₀ (by norm_num)]; ring
        _ ≤ 2 ^ 52 * 2 ^ r.exponent := by gcongr
        _ ≤ r.value := by exact_mod_cast reached

end Faithful

section Operations

variable {x y : Float} {p q : ℚ}

theorem exists_zero_of_value? (h : value? x = some 0) : ∃ s, x.toModel.unpack = .zero s := by
  rw [value?] at h
  cases unpacked : x.toModel.unpack with
  | notANumber | infinity => simp [unpacked, rational?] at h
  | zero s => exact ⟨s, rfl⟩
  | finite s m e hm =>
    have mantissa : (m : ℚ) ≠ 0 := by exact_mod_cast hm.ne'
    have unit : (2 : ℚ) ^ e ≠ 0 := by positivity
    cases s <;> simp [unpacked, rational?, Sign.apply, mantissa, unit] at h

/-- A number from zero on is a zero or has a positive mantissa. -/
theorem unpack_cases (h : value? x = some p) (hp : 0 ≤ p) :
    (p = 0 ∧ ∃ s, x.toModel.unpack = .zero s) ∨
      (0 < p ∧ ∃ m e hm, x.toModel.unpack = .finite .positive m e hm) := by
  rcases hp.eq_or_lt with rfl | hp
  · exact .inl ⟨rfl, exists_zero_of_value? h⟩
  · obtain ⟨m, e, hm, unpacked, -⟩ := exists_unpack_of_value? h hp
    exact .inr ⟨hp, m, e, hm, unpacked⟩

/-- Positive doubles that stand for one number are taken apart in one way. -/
theorem unpack_eq_of_value? (hx : value? x = some p) (hy : value? y = some p) (hp : 0 < p) :
    x.toModel.unpack = y.toModel.unpack := by
  have compared := compare_eq (canonical x) (canonical y) hx hy
  obtain ⟨m, e, hm, first, -⟩ := exists_unpack_of_value? hx hp
  obtain ⟨n, f, hn, second, -⟩ := exists_unpack_of_value? hy hp
  rw [first, second] at compared ⊢
  change some ((compare e f).then (compare m n)) = some (compare p p) at compared
  rw [Option.some.injEq, compare_eq_iff_eq.2 rfl, Ordering.then_eq_eq, compare_eq_iff_eq,
    compare_eq_iff_eq] at compared
  obtain ⟨rfl, rfl⟩ := compared
  rfl

/-- A sum depends on a positive double by the number that it stands for. -/
theorem add_eq_of_value? (hx : value? x = some p) (hy : value? y = some p) (hp : 0 < p) (z : Float) :
    x + z = y + z := by
  show Float.ofModel (.pack (UnpackedFloat.add .binary64 x.toModel.unpack z.toModel.unpack)) =
    Float.ofModel (.pack (UnpackedFloat.add .binary64 y.toModel.unpack z.toModel.unpack))
  rw [unpack_eq_of_value? hx hy hp]

theorem value?_ofModel_zero (s : Sign) : value? (.ofModel (.pack (.zero s))) = some 0 :=
  value?_pack (.zero s)

/-- A packed double stands for what it stood for. -/
theorem value?_ofModel_unpack (x : Float) : value? (.ofModel (.pack x.toModel.unpack)) = value? x :=
  value?_pack (canonical x)

theorem faithful_add (hx : value? x = some p) (hy : value? y = some q) (hp : 0 ≤ p) (hq : 0 ≤ q)
    (bound : p + q ≤ largest) : ∃ v, value? (x + y) = some v ∧ Faithful (p + q) v := by
  have whole : x + y =
      .ofModel (.pack (UnpackedFloat.add .binary64 x.toModel.unpack y.toModel.unpack)) := rfl
  rcases unpack_cases hx hp with ⟨rfl, s, first⟩ | ⟨hp, m, e, hm, first⟩
  · refine ⟨q, ?_, by rw [zero_add]; exact .refl q⟩
    rw [whole, first, ← hy, ← value?_ofModel_unpack y]
    rcases unpack_cases hy hq with ⟨rfl, t, second⟩ | ⟨hq, n, f, hn, second⟩
    · rw [second]
      cases s <;> cases t <;> rfl
    · rw [second]
      rfl
  · rcases unpack_cases hy hq with ⟨rfl, t, second⟩ | ⟨hq, n, f, hn, second⟩
    · refine ⟨p, ?_, by rw [add_zero]; exact .refl p⟩
      rw [whole, second, ← hx, ← value?_ofModel_unpack x, first]
      rfl
    · obtain ⟨r, value⟩ := value?_add hx hy hp hq bound
      exact ⟨r.value, value, r.faithful⟩

theorem faithful_mul (hx : value? x = some p) (hy : value? y = some q) (hp : 0 ≤ p) (hq : 0 ≤ q)
    (bound : p * q ≤ largest) : ∃ v, value? (x * y) = some v ∧ Faithful (p * q) v := by
  have whole : x * y =
      .ofModel (.pack (UnpackedFloat.mul .binary64 x.toModel.unpack y.toModel.unpack)) := rfl
  rcases unpack_cases hx hp with ⟨rfl, s, first⟩ | ⟨hp, m, e, hm, first⟩
  · refine ⟨0, ?_, by rw [zero_mul]; exact .refl 0⟩
    rw [whole, first]
    rcases unpack_cases hy hq with ⟨rfl, t, second⟩ | ⟨hq, n, f, hn, second⟩
    · rw [second, UnpackedFloat.mul]
      exact value?_ofModel_zero _
    · rw [second, UnpackedFloat.mul]
      exact value?_ofModel_zero _
  · rcases unpack_cases hy hq with ⟨rfl, t, second⟩ | ⟨hq, n, f, hn, second⟩
    · refine ⟨0, ?_, by rw [mul_zero]; exact .refl 0⟩
      rw [whole, first, second, UnpackedFloat.mul]
      exact value?_ofModel_zero _
    · obtain ⟨r, value⟩ := value?_mul hx hy hp hq bound
      exact ⟨r.value, value, r.faithful⟩

theorem faithful_div (hx : value? x = some p) (hy : value? y = some q) (hp : 0 ≤ p) (hq : 0 < q)
    (bound : p / q ≤ largest) : ∃ v, value? (x / y) = some v ∧ Faithful (p / q) v := by
  have whole : x / y =
      .ofModel (.pack (UnpackedFloat.div .binary64 x.toModel.unpack y.toModel.unpack)) := rfl
  rcases unpack_cases hx hp with ⟨rfl, s, first⟩ | ⟨hp, -⟩
  · refine ⟨0, ?_, by rw [zero_div]; exact .refl 0⟩
    obtain ⟨n, f, hn, second, -⟩ := exists_unpack_of_value? hy hq
    rw [whole, first, second, UnpackedFloat.div]
    exact value?_ofModel_zero _
  · obtain ⟨r, value⟩ := value?_div hx hy hp hq bound
    exact ⟨r.value, value, r.faithful⟩

end Operations

namespace Lies

variable {a b c d low high : ℚ} {x y : Float}

/-- A result that is faithful to a number between two doubles lies between them. -/
theorem of_faithful {q : ℚ} (h : q ≤ largest → ∃ v, value? x = some v ∧ Faithful q v)
    (hl : IsDouble low) (hh : IsDouble high) (above : low ≤ q) (below : q ≤ high) :
    Lies low high x := by
  obtain ⟨v, value, faithful⟩ := h (below.trans hh.le_largest)
  exact ⟨v, value, (faithful low hl).2 above, (faithful high hh).1 below⟩

variable (hx : Lies a b x) (hy : Lies c d y) (hl : IsDouble low) (hh : IsDouble high)

include hx hy hl hh

theorem add (ha : 0 ≤ a) (hc : 0 ≤ c) (least : low ≤ a + c) (most : b + d ≤ high) :
    Lies low high (x + y) := by
  obtain ⟨p, hp, above, below⟩ := hx
  obtain ⟨q, hq, above', below'⟩ := hy
  exact of_faithful (faithful_add hp hq (ha.trans above) (hc.trans above')) hl hh (by linarith)
    (by linarith)

theorem mul (ha : 0 ≤ a) (hc : 0 ≤ c) (least : low ≤ a * c) (most : b * d ≤ high) :
    Lies low high (x * y) := by
  obtain ⟨p, hp, above, below⟩ := hx
  obtain ⟨q, hq, above', below'⟩ := hy
  have hp0 := ha.trans above
  have hq0 := hc.trans above'
  have hb0 := hp0.trans below
  refine of_faithful (faithful_mul hp hq hp0 hq0) hl hh (least.trans ?_) (most.trans' ?_)
  · gcongr
  · gcongr

theorem div (ha : 0 ≤ a) (hc : 0 < c) (least : low ≤ a / d) (most : b / c ≤ high) :
    Lies low high (x / y) := by
  obtain ⟨p, hp, above, below⟩ := hx
  obtain ⟨q, hq, above', below'⟩ := hy
  have hp0 := ha.trans above
  have hq0 := hc.trans_le above'
  have hb0 := hp0.trans below
  refine of_faithful (faithful_div hp hq hp0 hq0) hl hh (least.trans ?_) (most.trans' ?_)
  · gcongr
  · gcongr

end Lies

section Round

variable {low high v : ℚ} {x : Float} {n m d : ℕ} {e : ℤ} {negative : Bool}

/-- The mantissa of a number that is not too large counts parts of one. -/
theorem exponent_neg (h : view x = .finite negative m e) (small : (m : ℚ) * 2 ^ e < 2 ^ 52) : e < 0 := by
  by_contra! whole
  obtain rfl | full := least_or_full h
  · omega
  · have scale : (1 : ℚ) ≤ 2 ^ e := one_le_zpow₀ one_le_two whole
    have full : (2 : ℚ) ^ 52 ≤ m := by exact_mod_cast full
    have : (m : ℚ) ≤ m * 2 ^ e := le_mul_of_one_le_right m.cast_nonneg scale
    linarith

/-- The quotient that `round` takes of a fraction is the whole number next to it. -/
theorem halfUp_eq (pos : 0 < d) (fraction : v * d = m) (above : n - 1 / 2 ≤ v) (below : v < n + 1 / 2) :
    (2 * m + d) / (2 * d) = n := by
  have unit : (0 : ℚ) < d := by exact_mod_cast pos
  have lower : ((n : ℚ) - 1 / 2) * d ≤ m := by
    rw [← fraction]
    gcongr
  have upper : (m : ℚ) < (n + 1 / 2) * d := by
    rw [← fraction]
    gcongr
  refine Nat.div_eq_of_lt_le ?_ ?_
  · have : (n : ℚ) * (2 * d) ≤ 2 * m + d := by linarith
    exact_mod_cast this
  · have : 2 * (m : ℚ) + d < (n + 1) * (2 * d) := by linarith
    exact_mod_cast this

/-- A number that is less than a half away from a whole number is rounded to it, up to the sign of
zero. -/
theorem exists_round_eq (h : Lies low high x) (hl : 0 ≤ low) (above : n - 1 / 2 ≤ low)
    (below : high < n + 1 / 2) (small : n < 2 ^ 51) :
    ∃ negative, (negative = true → n = 0) ∧ round x = ofScaled negative n 0 := by
  obtain ⟨v, value, least, most⟩ := h
  obtain ⟨negative, m, e, viewed, -⟩ := exists_view_of_value? value
  have same := Option.some.inj (value.symm.trans (value?_of_view viewed))
  have nonneg : (0 : ℚ) ≤ m * 2 ^ e := by positivity
  have magnitude : v = m * 2 ^ e := by split_ifs at same <;> linarith
  have small : (n : ℚ) < 2 ^ 51 := by exact_mod_cast small
  have places : e < 0 := exponent_neg viewed (by linarith)
  have fraction : v * (2 ^ (-e).toNat : ℕ) = m := by
    rw [magnitude, mul_assoc, Nat.cast_pow, Nat.cast_ofNat, ← zpow_natCast, ← zpow_add₀ two_ne_zero,
      Int.toNat_of_nonneg (by omega), add_neg_cancel, zpow_zero, mul_one]
  refine ⟨negative, fun sign => ?_, ?_⟩
  · rw [if_pos sign] at same
    have : (n : ℚ) < 1 := by linarith
    exact Nat.lt_one_iff.1 (by exact_mod_cast this)
  · have whole : (2 * m + 2 ^ (-e).toNat) / (2 * 2 ^ (-e).toNat) = n :=
      halfUp_eq (by positivity) fraction (by linarith) (by linarith)
    rw [round, mapMagnitude, viewed]
    dsimp only [Nat.pow_eq]
    rw [if_neg (not_le.2 places), whole]

end Round

end DesignTokens.Binary64
