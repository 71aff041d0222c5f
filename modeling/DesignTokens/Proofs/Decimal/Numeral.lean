import Mathlib
import DesignTokens.Proofs.Binary64.Arithmetic
import DesignTokens.Proofs.Decimal.Fixed
import DesignTokens.Proofs.Decimal.Grammar

/-!
# How numbers are read

A numeral in the range of the doubles is read as the double nearest to it. A number that was written is
scanned with the digits that it was written with, whatever follows that does not go on with it.
-/

namespace DesignTokens.Decimal

open Text Binary64

section Scaled

variable {n : ℕ} {e : ℤ}

/-- A rounding to zero. -/
def zeroRounding {q : ℚ} (nonneg : 0 ≤ q) (small : q ≤ 2 ^ (-1075 : ℤ)) : Rounding q where
  mantissa := 0
  exponent := -1074
  least := le_rfl
  full := .inl rfl
  near := by
    have unit : (2 : ℚ) ^ (-1075 : ℤ) = 2⁻¹ * 2 ^ (-1074 : ℤ) := by
      rw [mul_comm, ← zpow_sub_one₀ (by norm_num)]
      norm_num
    have half : q / 2 ^ (-1074 : ℤ) ≤ 1 / 2 := by
      rw [div_le_iff₀ (by positivity), one_div, ← unit]
      exact small
    rw [Nat.cast_zero, zero_sub, abs_neg, abs_of_nonneg (by positivity)]
    exact half

/-- A decimal whose exponent tells that it is tiny lies below half of the smallest double. -/
theorem tiny_of_exponent (h : e + n.log2 < -400) : (n : ℚ) * 10 ^ e ≤ 2 ^ (-1075 : ℤ) := by
  have bits : (n : ℚ) ≤ 2 ^ (n.log2 + 1) := by exact_mod_cast Nat.lt_log2_self.le
  calc (n : ℚ) * 10 ^ e ≤ 2 ^ (n.log2 + 1) * 10 ^ e := by gcongr
    _ ≤ 10 ^ (n.log2 + 1) * 10 ^ e := by gcongr; norm_num
    _ = 10 ^ ((n.log2 + 1 : ℕ) + e) := by rw [zpow_add₀ (by norm_num), zpow_natCast]
    _ ≤ 10 ^ (-400 : ℤ) := zpow_le_zpow_right₀ (by norm_num) (by push_cast; omega)
    _ ≤ (2 ^ 3) ^ (-400 : ℤ) := by
      rw [zpow_neg, zpow_neg]
      exact inv_anti₀ (by positivity) (zpow_le_zpow_left₀ (by norm_num) (by norm_num) (by norm_num))
    _ ≤ 2 ^ (-1075 : ℤ) := by
      rw [← zpow_natCast, ← zpow_mul]
      exact zpow_le_zpow_right₀ (by norm_num) (by norm_num)

/-- A decimal whose exponent tells that it is huge lies above the largest double. -/
theorem le_of_bound (hn : n ≠ 0) (bound : (n : ℚ) * 10 ^ e ≤ largest) : e ≤ 310 := by
  by_contra above
  have one : (1 : ℚ) ≤ n := by exact_mod_cast Nat.one_le_iff_ne_zero.2 hn
  refine bound.not_gt ?_
  calc largest < 2 ^ 53 * 2 ^ (971 : ℤ) := by rw [largest]; gcongr; norm_num
    _ = 2 * (2 ^ 33) ^ (31 : ℤ) := by
      rw [← zpow_natCast, ← zpow_natCast, ← zpow_mul, ← zpow_add₀ (by norm_num),
        ← zpow_one_add₀ (by norm_num)]
      norm_num
    _ ≤ 10 * (10 ^ 10) ^ (31 : ℤ) := by gcongr <;> norm_num
    _ = 10 ^ (311 : ℤ) := by
      rw [← zpow_natCast (10 : ℚ) 10, ← zpow_mul, ← zpow_one_add₀ (by norm_num)]
      norm_num
    _ ≤ 10 ^ e := zpow_le_zpow_right₀ (by norm_num) (by omega)
    _ ≤ n * 10 ^ e := le_mul_of_one_le_left (by positivity) one

/-- A decimal in the range of the doubles is read as the double nearest to it. -/
theorem value?_scaled (negative : Bool) (bound : (n : ℚ) * 10 ^ e ≤ largest) :
    ∃ r : Rounding (n * 10 ^ e),
      value? (scaled negative n e) = some (if negative then -r.value else r.value) := by
  have magnitude : ∃ r : Rounding (n * 10 ^ e), value? (scaled false n e) = some r.value := by
    have zero (small : (n : ℚ) * 10 ^ e ≤ 2 ^ (-1075 : ℤ)) :
        ∃ r : Rounding (n * 10 ^ e), value? 0 = some r.value :=
      ⟨zeroRounding (by positivity) small, by simp [value?_zero, Rounding.value, zeroRounding]⟩
    simp only [scaled, Bool.false_eq_true, if_false]
    split_ifs with none huge tiny
    · exact zero (by rw [none, Nat.cast_zero, zero_mul]; positivity)
    · have := le_of_bound none bound
      omega
    · exact zero (tiny_of_exponent tiny)
    · have := le_of_bound none bound
      exact value?_ofScientific (Nat.pos_of_ne_zero none) (by omega) (by omega) bound
  obtain ⟨r, value⟩ := magnitude
  refine ⟨r, ?_⟩
  cases negative with
  | false => exact value
  | true =>
    show value? (-(scaled false n e)) = _
    rw [value?_neg, value]
    rfl

end Scaled

section Spelled

variable {whole fraction rest : List Char}

/-- The digits of a written number are the digits of a numeral. -/
theorem mantissaText_spelled (hw : whole.all isDigit = true) (some : whole ≠ [])
    (hf : fraction.all isDigit = true) :
    MantissaText isDigit whole fraction (spelled false whole fraction) := by
  by_cases none : fraction = []
  · have text : spelled false whole fraction = whole := by simp [spelled, none]
    rw [text, none]
    exact .whole some (List.all_eq_true.1 hw)
  · have text : spelled false whole fraction = whole ++ '.' :: fraction := by simp [spelled, none]
    rw [text]
    exact .point (by simp [some])
      (List.forall_mem_append.2 ⟨List.all_eq_true.1 hw, List.all_eq_true.1 hf⟩)

/-- A number that was written is a numeral without an exponent. -/
theorem numeralText_spelled (negative : Bool) (hw : whole.all isDigit = true) (some : whole ≠ [])
    (hf : fraction.all isDigit = true) :
    NumeralText isDigit ⟨negative, whole, fraction, 0⟩ (spelled negative whole fraction) := by
  have digits := mantissaText_spelled hw some hf
  cases negative with
  | false => simpa using NumeralText.intro .absent digits .absent
  | true => simpa [spelled] using NumeralText.intro .minus digits .absent

/-- A number that was written is scanned with its digits. -/
theorem scan_spelled (negative : Bool) (hw : whole.all isDigit = true) (some : whole ≠ [])
    (hf : fraction.all isDigit = true) (hr : Follows rest) :
    Numeral.scan (spelled negative whole fraction ++ rest) =
      Option.some (⟨negative, whole, fraction, 0⟩, rest) :=
  scan_append (numeralText_spelled negative hw some hf) hr

end Spelled

section ReadBack

variable {x : Float} {negative : Bool} {m : ℕ} {e : ℤ} {rest : List Char}

/-- The digits that a number is spelled with stand for its units. -/
theorem digitsValue_scaled (p n : ℕ) :
    (digitsValue (digits (n / 10 ^ p) ++ fraction p n) : ℚ) * 10 ^ (-(fraction p n).length : ℤ) =
      n / 10 ^ p := by
  have value : (digitsValue (digits (n / 10 ^ p) ++ fraction p n) : ℚ) *
      10 ^ (p - (fraction p n).length) = n := by
    exact_mod_cast digitsValue_spelled p n
  have places : (10 : ℚ) ^ p = 10 ^ (p - (fraction p n).length) * 10 ^ (fraction p n).length := by
    rw [← pow_add, Nat.sub_add_cancel (length_fraction_le p n)]
  rw [zpow_neg, zpow_natCast, places]
  conv_rhs => rw [← value]
  field_simp

/-- The digits of a number of units are read as the double nearest to it. -/
theorem value?_units (negative : Bool) {n p : ℕ} (bound : (n : ℚ) / 10 ^ p ≤ largest) :
    ∃ r : Rounding (n / 10 ^ p),
      value? (⟨negative, digits (n / 10 ^ p), fraction p n, 0⟩ : Numeral).toFloat =
        some (if negative then -r.value else r.value) := by
  rw [Numeral.toFloat, zero_sub, ← digitsValue_scaled]
  exact value?_scaled negative (by rwa [digitsValue_scaled])

/-- A finite double with places after the point is in the range of the doubles when it is written. -/
theorem units_le_largest (mantissa : m < 2 ^ 53) (greatest : e ≤ 971) (p : ℕ) :
    (fixedDigits m e p : ℚ) / 10 ^ p ≤ largest := by
  have near := (abs_le.1 (fixedDigits_near m e p)).2
  have ten : (1 : ℚ) ≤ 10 ^ p := one_le_pow₀ (by norm_num)
  have bits : (m : ℚ) ≤ 2 ^ 53 - 1 := by
    have : (m : ℚ) + 1 ≤ 2 ^ 53 := by exact_mod_cast mantissa
    linarith
  rw [div_le_iff₀ (by positivity)]
  rcases le_or_gt 0 e with whole | fractional
  · -- without places the units are the exact ones
    have scale : (2 : ℚ) ^ e = (2 ^ e.toNat : ℕ) := by
      have : e = (e.toNat : ℤ) := by omega
      conv_lhs => rw [this, zpow_natCast]
      push_cast
      rfl
    have exact_ : fixedDigits m e p ≤ m * 2 ^ e.toNat * 10 ^ p := by
      have : (fixedDigits m e p : ℚ) < (m * 2 ^ e.toNat * 10 ^ p : ℕ) + 1 := by
        rw [scale] at near
        push_cast at near ⊢
        linarith
      exact Nat.lt_succ_iff.1 (by exact_mod_cast this)
    calc (fixedDigits m e p : ℚ) ≤ m * 2 ^ e * 10 ^ p := by rw [scale]; exact_mod_cast exact_
      _ ≤ (2 ^ 53 - 1) * 2 ^ (971 : ℤ) * 10 ^ p := by gcongr; norm_num
      _ = largest * 10 ^ p := rfl
  · have scale : (2 : ℚ) ^ e ≤ 1 := zpow_le_one_of_nonpos₀ (by norm_num) fractional.le
    have unit : (m : ℚ) * 2 ^ e ≤ 2 ^ 53 - 1 := by
      calc (m : ℚ) * 2 ^ e ≤ m * 1 := by gcongr
        _ ≤ 2 ^ 53 - 1 := by rw [mul_one]; exact bits
    calc (fixedDigits m e p : ℚ) ≤ m * 2 ^ e * 10 ^ p + 1 := by linarith
      _ ≤ (2 ^ 53 - 1) * 10 ^ p + 1 * 10 ^ p := by gcongr; linarith
      _ = 2 ^ 53 * 10 ^ p := by ring
      _ ≤ largest * 10 ^ p := by gcongr; exact two_pow_le_largest

/-- A finite double that was written is read as the double nearest to what was written. -/
theorem scan_trimmedText (h : view x = .finite negative m e) (p : ℕ) (hr : Follows rest) :
    ∃ n, Numeral.scan (trimmedText p x ++ rest) = some (n, rest) ∧
      ∃ r : Rounding (fixedDigits m e p / 10 ^ p), value? n.toFloat =
        some (if negative && fixedDigits m e p != 0 then -r.value else r.value) := by
  obtain ⟨_, _, _, same, mantissa, -, greatest⟩ := exists_view_of_value? (value?_of_view h)
  obtain ⟨rfl, rfl, rfl⟩ := View.finite.inj (h.symm.trans same)
  rw [trimmedText_eq h]
  exact ⟨_, scan_spelled _ (all_digits _) (digits_ne_nil _) (all_fraction _ _) hr,
    value?_units _ (units_le_largest mantissa greatest p)⟩

/-- The second double is the first one rounded to some places, or the double nearest to that. -/
def RoundedTo (places : ℕ) (x y : Float) : Prop :=
  ∃ (p q : ℚ) (n : ℤ), value? x = some p ∧ value? y = some q ∧ |n - p * 10 ^ places| ≤ 1 / 2 ∧
    |q - n / 10 ^ places| ≤ max (|(n : ℚ)| / 10 ^ places / 2 ^ 53) (2 ^ (-1075 : ℤ))

/-- A finite double that was written is read as the double rounded to the places it was written with. -/
theorem roundedTo_trimmedText (h : x.isFinite = true) (p : ℕ) (hr : Follows rest) :
    ∃ n, Numeral.scan (trimmedText p x ++ rest) = some (n, rest) ∧ RoundedTo p x n.toFloat := by
  obtain ⟨v, value⟩ := isFinite_iff.1 h
  obtain ⟨negative, m, e, viewed, -⟩ := exists_view_of_value? value
  obtain ⟨numeral, scanned, r, read⟩ := scan_trimmedText viewed p hr
  refine ⟨numeral, scanned, ?_⟩
  have near := fixedDigits_near m e p
  have error := r.error
  have exact_ := value?_of_view viewed
  generalize fixedDigits m e p = n at r read near error
  have natural : |(n : ℚ)| = n := abs_of_nonneg (Nat.cast_nonneg n)
  cases negative with
  | false => exact ⟨m * 2 ^ e, r.value, n, exact_, read, by simpa using near, by simpa [natural] using error⟩
  | true =>
    refine ⟨-(m * 2 ^ e), if n = 0 then r.value else -r.value, -n, exact_, ?_, ?_, ?_⟩
    · rw [read]
      split_ifs <;> simp_all
    · rw [abs_sub_comm] at near
      simpa [neg_mul, sub_eq_add_neg, add_comm] using near
    · split_ifs with zero
      · simpa [zero] using error
      · rw [abs_sub_comm] at error
        simpa [natural, neg_div, sub_eq_add_neg, add_comm] using error

/-- A number of units that is not too large is read as a double less than half a unit away from it. -/
theorem near_of_rounding {n p : ℕ} (r : Rounding (n / 10 ^ p)) (digits : n < 2 ^ 52) (places : p ≤ 15) :
    |r.value * 10 ^ p - n| < 1 / 2 := by
  have positive : (0 : ℚ) < 10 ^ p := by positivity
  have exact_ : r.value * 10 ^ p - n = (r.value - n / 10 ^ p) * 10 ^ p := by
    rw [sub_mul, div_mul_cancel₀ _ positive.ne']
  rw [exact_, abs_mul, abs_of_pos positive]
  refine lt_of_le_of_lt (mul_le_mul_of_nonneg_right r.error positive.le) ?_
  rw [max_mul_of_nonneg _ _ positive.le, max_lt_iff]
  have digits : (n : ℚ) < 2 ^ 52 := by exact_mod_cast digits
  constructor
  · rw [div_right_comm, div_mul_cancel₀ _ positive.ne', div_lt_iff₀ (by positivity)]
    calc (n : ℚ) < 2 ^ 52 := digits
      _ = 1 / 2 * 2 ^ 53 := by norm_num
  · calc (2 : ℚ) ^ (-1075 : ℤ) * 10 ^ p ≤ 2 ^ (-60 : ℤ) * 10 ^ 15 := by gcongr <;> norm_num
      _ < 1 / 2 := by norm_num

/-- A written number is read whole as the double nearest to it. -/
theorem readFloat?_spelled {n p : ℕ} (bound : (n : ℚ) / 10 ^ p ≤ largest) :
    ∃ x, readFloat? (spelled false (digits (n / 10 ^ p)) (fraction p n)) = some x ∧
      ∃ r : Rounding (n / 10 ^ p), value? x = some r.value := by
  have numeral :=
    numeralText_spelled false (all_digits (n / 10 ^ p)) (digits_ne_nil _) (all_fraction p n)
  exact ⟨_, readFloat?_eq_some_iff.2 (.number numeral), value?_units false bound⟩

/-- A natural number is read from its digits. -/
theorem readFloat?_digits (n : ℕ) : readFloat? (digits n) = some (Float.ofNat n) := by
  have text : spelled false (digits n) [] = digits n := by simp [spelled]
  have numeral := numeralText_spelled false (all_digits n) (digits_ne_nil n) (List.all_nil)
  rw [text] at numeral
  have value : scaled false n 0 = Float.ofNat n := by
    by_cases zero : n = 0
    · rw [zero]
      decide +kernel
    · have large : ¬ (0 : ℤ) + n.log2 < -400 := by omega
      rw [scaled, if_neg zero, if_neg (by norm_num), if_neg large]
      rfl
  rw [readFloat?_eq_some_iff.2 (.number numeral)]
  show some (scaled false (digitsValue (digits n ++ [])) 0) = _
  rw [List.append_nil, digitsValue_digits, value]

/-- The names that doubles are written with that are not finite. -/
def nonFinite : List (List Char) := ["NaN".toList, "inf".toList, "-inf".toList]

theorem trimmedText_mem_nonFinite (h : x.isFinite = false) (p : ℕ) : trimmedText p x ∈ nonFinite := by
  cases viewed : view x with
  | nan => simp [trimmedText, fixedText, viewed, nonFinite, trimFraction]
  | infinite negative => cases negative <;> simp [trimmedText, fixedText, viewed, nonFinite, trimFraction]
  | finite negative m e =>
    rw [isFinite_iff.2 ⟨_, value?_of_view viewed⟩] at h
    cases h

/-- No other double is written as a number. -/
theorem scan_trimmedText_of_not_finite (h : x.isFinite = false) (p : ℕ) (rest : List Char) :
    Numeral.scan (trimmedText p x ++ rest) = none := by
  have named := trimmedText_mem_nonFinite h p
  simp only [nonFinite, List.mem_cons, List.not_mem_nil, or_false] at named
  obtain text | text | text := named <;> rw [text] <;> rfl

/-- A number is written without blanks and quotes, whether it is finite or not. -/
theorem all_isPlain_trimmedText (p : ℕ) (x : Float) : (trimmedText p x).all isPlain = true := by
  have digitsPlain {s : List Char} (h : s.all isDigit = true) : s.all isPlain = true :=
    List.all_eq_true.2 fun c hc => isPlain_of_isDigit (List.all_eq_true.1 h c hc)
  rcases hx : x.isFinite with _ | _
  · have names : ∀ s ∈ nonFinite, s.all isPlain = true := by decide
    exact names _ (trimmedText_mem_nonFinite hx p)
  · obtain ⟨q, value⟩ := isFinite_iff.1 hx
    obtain ⟨negative, m, e, viewed, -⟩ := exists_view_of_value? value
    have signs : isPlain '.' = true ∧ isPlain '-' = true := by decide
    rw [trimmedText_eq viewed, spelled, List.all_append, List.all_append, digitsPlain (all_digits _)]
    split_ifs <;> simp [signs, digitsPlain (all_fraction _ _)]

end ReadBack

end DesignTokens.Decimal
