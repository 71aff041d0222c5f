import Mathlib
import DesignTokens.Proofs.Binary64.Value

/-!
# Rounding

A product, a quotient and a decimal come out as the double nearest to the exact number: a multiple of a
unit that is at most `2 ^ -52` of the number, or the least unit there is. The exact number is followed
through the shifts of its mantissa, where two bits tell what has been shifted out.
-/

namespace DesignTokens.Binary64

open Float.Model Float.Model.UnpackedFloat

/-- A number lies between a mantissa and the next one where its two further bits tell. -/
def Represents (em : ExtendedMantissa) (q : ℚ) : Prop :=
  match em.roundBit, em.stickyBit with
  | false, false => q = em.mantissa
  | false, true => em.mantissa < q ∧ q < em.mantissa + 1 / 2
  | true, false => q = em.mantissa + 1 / 2
  | true, true => em.mantissa + 1 / 2 < q ∧ q < em.mantissa + 1

namespace Represents

variable {em : ExtendedMantissa} {q : ℚ}

theorem bounds (h : Represents em q) : em.mantissa ≤ q ∧ q < em.mantissa + 1 := by
  obtain ⟨m, _ | _, _ | _⟩ := em <;> simp only [Represents] at h <;> constructor <;> linarith

theorem near (h : Represents em q) : |em.roundedMantissa - q| ≤ 1 / 2 := by
  obtain ⟨m, _ | _, _ | _⟩ := em <;>
    simp only [Represents, ExtendedMantissa.roundedMantissa, ExtendedMantissa.accuracy,
      Accuracy.roundToNearestEven] at h ⊢
  · rw [h]
    norm_num
  · rw [abs_le]
    constructor <;> linarith
  · rw [h, abs_le]
    rcases Nat.mod_two_eq_zero_or_one m with even | odd
    · rw [even]
      push_cast
      constructor <;> linarith
    · rw [odd]
      push_cast
      constructor <;> linarith
  · rw [abs_le]
    push_cast
    constructor <;> linarith

theorem shiftRightOne (h : Represents em q) : Represents em.shiftRightOne (q / 2) := by
  obtain ⟨m, round, sticky⟩ := em
  have whole : ((m % 2 : ℕ) : ℚ) + 2 * (m / 2 : ℕ) = m := by exact_mod_cast Nat.mod_add_div m 2
  have last : m % 2 = 0 ∧ (m % 2 != 0) = false ∨ m % 2 = 1 ∧ (m % 2 != 0) = true := by
    rcases Nat.mod_two_eq_zero_or_one m with h | h <;> simp [h]
  obtain ⟨even, last⟩ | ⟨odd, last⟩ := last
  · rw [even, Nat.cast_zero] at whole
    cases round <;> cases sticky <;>
      simp only [Represents, ExtendedMantissa.shiftRightOne, last, Bool.or_false, Bool.or_true] at h ⊢
    all_goals first | linarith | constructor <;> linarith
  · rw [odd, Nat.cast_one] at whole
    cases round <;> cases sticky <;>
      simp only [Represents, ExtendedMantissa.shiftRightOne, last, Bool.or_false, Bool.or_true] at h ⊢
    all_goals first | linarith | constructor <;> linarith

theorem shiftRight (h : Represents em q) (n : ℕ) : Represents (em >>> n) (q / 2 ^ n) := by
  show Represents (n.repeat ExtendedMantissa.shiftRightOne em) _
  induction n with
  | zero => simpa [Nat.repeat] using h
  | succ n ih =>
    rw [Nat.repeat, pow_succ, ← div_div]
    exact ih.shiftRightOne

theorem ofNat (m : ℕ) : Represents (.ofMantissaAndAccuracy m .exact) m := rfl

/-- The quotient and the remainder of a division tell where the exact quotient lies. -/
theorem ofFraction (n : ℕ) {d : ℕ} (hd : 0 < d) :
    Represents (.ofMantissaAndAccuracy (n / d) (accuracyOfFraction (n % d) d)) (n / d) := by
  have rest := Nat.mod_lt n hd
  have positive : (0 : ℚ) < d := by exact_mod_cast hd
  have parts : (n : ℚ) / d = (n / d : ℕ) + (n % d : ℕ) / d := by
    have : (d : ℚ) * (n / d : ℕ) + (n % d : ℕ) = n := by exact_mod_cast Nat.div_add_mod n d
    field_simp
    linarith
  have below : ((n % d : ℕ) : ℚ) / d < 1 := by
    rw [div_lt_one positive]
    exact_mod_cast rest
  rw [parts, accuracyOfFraction]
  split
  · rename_i none
    simp [none, Represents, ExtendedMantissa.ofMantissaAndAccuracy]
  · have above : (0 : ℚ) < (n % d : ℕ) / d := by positivity
    rcases lt_trichotomy (2 * (n % d)) d with h | h | h
    · have : ((n % d : ℕ) : ℚ) / d < 1 / 2 := by
        rw [div_lt_div_iff₀ positive two_pos]
        exact_mod_cast (by omega : n % d * 2 < 1 * d)
      rw [Nat.compare_eq_lt.2 h]
      exact ⟨lt_add_of_pos_right _ above, by simpa [ExtendedMantissa.ofMantissaAndAccuracy] using this⟩
    · have : ((n % d : ℕ) : ℚ) / d = 1 / 2 := by
        rw [div_eq_div_iff positive.ne' two_ne_zero]
        exact_mod_cast (by omega : n % d * 2 = 1 * d)
      rw [Nat.compare_eq_eq.2 h]
      exact congrArg _ this
    · have : 1 / 2 < ((n % d : ℕ) : ℚ) / d := by
        rw [div_lt_div_iff₀ two_pos positive]
        exact_mod_cast (by omega : 1 * d < n % d * 2)
      rw [Nat.compare_eq_gt.2 h]
      exact ⟨by simpa [ExtendedMantissa.ofMantissaAndAccuracy] using this,
        by simpa [ExtendedMantissa.ofMantissaAndAccuracy] using below⟩

end Represents

/-- The largest finite double. -/
def largest : ℚ := (2 ^ 53 - 1) * 2 ^ (971 : ℤ)

/-- A number rounded to a multiple of a unit, which is the least one or small against the number. -/
structure Rounding (q : ℚ) where
  mantissa : ℕ
  exponent : ℤ
  least : -1074 ≤ exponent
  full : exponent = -1074 ∨ 2 ^ 52 * 2 ^ exponent ≤ q
  near : |mantissa - q / 2 ^ exponent| ≤ 1 / 2

namespace Rounding

variable {q : ℚ} (r : Rounding q)

/-- The rounded number. -/
def value : ℚ := r.mantissa * 2 ^ r.exponent

/-- Half of the unit is the greatest error. -/
theorem error : |r.value - q| ≤ max (q / 2 ^ 53) (2 ^ (-1075 : ℤ)) := by
  have unit : (0 : ℚ) < 2 ^ r.exponent := by positivity
  have scaled : |r.value - q| ≤ 2⁻¹ * 2 ^ r.exponent := by
    calc |r.value - q| = |r.mantissa - q / 2 ^ r.exponent| * 2 ^ r.exponent := by
          rw [← abs_of_pos unit, ← abs_mul, abs_of_pos unit, sub_mul, div_mul_cancel₀ _ unit.ne']
          rfl
      _ ≤ 2⁻¹ * 2 ^ r.exponent := by gcongr; exact r.near.trans_eq (one_div _)
  refine scaled.trans ?_
  rcases r.full with least | full
  · refine le_max_of_le_right (le_of_eq ?_)
    rw [least, mul_comm, ← zpow_sub_one₀ (by norm_num)]
    norm_num
  · refine le_max_of_le_left ?_
    rw [le_div_iff₀ (by positivity)]
    calc (2 : ℚ)⁻¹ * 2 ^ r.exponent * 2 ^ 53 = 2 ^ 52 * 2 ^ r.exponent := by ring
      _ ≤ q := full

theorem exponent_le {j : ℤ} (hj : -1074 ≤ j) (h : q < 2 ^ 53 * 2 ^ j) : r.exponent ≤ j := by
  rcases r.full with least | full
  · omega
  · by_contra above
    have scale : (2 : ℚ) ^ (j + 1) ≤ 2 ^ r.exponent := zpow_le_zpow_right₀ (by norm_num) (by omega)
    refine h.not_ge ?_
    calc 2 ^ 53 * (2 : ℚ) ^ j = 2 ^ 52 * 2 ^ (j + 1) := by rw [zpow_add_one₀ (by norm_num)]; ring
      _ ≤ 2 ^ 52 * 2 ^ r.exponent := by gcongr
      _ ≤ q := full

/-- A multiple of a larger unit is one of the unit. -/
theorem scaled_eq {c : ℕ} {j : ℤ} (h : r.exponent ≤ j) :
    (c : ℚ) * 2 ^ j = (c * 2 ^ (j - r.exponent).toNat : ℕ) * 2 ^ r.exponent := by
  have split : j = ((j - r.exponent).toNat : ℤ) + r.exponent := by omega
  conv_lhs => rw [split, zpow_add₀ (by norm_num), zpow_natCast]
  push_cast
  ring

theorem value_le {c : ℕ} {j : ℤ} (hj : r.exponent ≤ j) (h : q ≤ c * 2 ^ j) : r.value ≤ c * 2 ^ j := by
  have unit : (0 : ℚ) < 2 ^ r.exponent := by positivity
  rw [r.scaled_eq hj] at h ⊢
  have below := (abs_le.1 r.near).2
  have quotient := (div_le_iff₀ unit).2 h
  have : r.mantissa < c * 2 ^ (j - r.exponent).toNat + 1 := by
    have : (r.mantissa : ℚ) < (c * 2 ^ (j - r.exponent).toNat : ℕ) + 1 := by linarith
    exact_mod_cast this
  rw [value]
  gcongr
  omega

theorem le_value {c : ℕ} {j : ℤ} (hj : r.exponent ≤ j) (h : c * 2 ^ j ≤ q) : c * 2 ^ j ≤ r.value := by
  have unit : (0 : ℚ) < 2 ^ r.exponent := by positivity
  rw [r.scaled_eq hj] at h ⊢
  have above := (abs_le.1 r.near).1
  have quotient := (le_div_iff₀ unit).2 h
  have : c * 2 ^ (j - r.exponent).toNat < r.mantissa + 1 := by
    have : ((c * 2 ^ (j - r.exponent).toNat : ℕ) : ℚ) < r.mantissa + 1 := by linarith
    exact_mod_cast this
  rw [value]
  gcongr
  omega

/-- A number of fifty-three bits stays as it is. -/
theorem value_eq {c : ℕ} {j : ℤ} (hc : c < 2 ^ 53) (hj : -1074 ≤ j) (h : q = c * 2 ^ j) :
    r.value = q := by
  have bits : (c : ℚ) < 2 ^ 53 := by exact_mod_cast hc
  have fine : r.exponent ≤ j := r.exponent_le hj (by rw [h]; gcongr)
  exact (le_antisymm (r.value_le fine h.le) (r.le_value fine h.ge)).trans h.symm

/-- A number in the range of the doubles stays in it. -/
theorem value_le_largest (h : q ≤ largest) : r.value ≤ largest := by
  have cast : largest = (2 ^ 53 - 1 : ℕ) * 2 ^ (971 : ℤ) := by norm_num [largest]
  have fine : r.exponent ≤ 971 := by
    refine r.exponent_le (by norm_num) (h.trans_lt ?_)
    rw [largest]
    gcongr
    norm_num
  rw [cast] at h ⊢
  exact r.value_le fine h

end Rounding

section Operations

/-- An unpacked double is the rounding of a positive number. -/
def Rounded (u : UnpackedFloat) (q : ℚ) : Prop :=
  ∃ r : Rounding q, rational? u = some r.value ∧ (r.value ≤ largest → Canonical u)

variable {m : ℕ} {e : ℤ} {acc : Accuracy} {q : ℚ}

/-- A rounded mantissa is shifted once more if the rounding has carried it to fifty-four bits. -/
def carried (s : Sign) (m : ℕ) (e : ℤ) : UnpackedFloat :=
  let shifted := shiftToTargetExponent .binary64 m e .exact
  if h : shifted.1.mantissa = 0 then .zero s
  else .finite s shifted.1.mantissa shifted.2 (Nat.pos_of_ne_zero h)

theorem roundWithAccuracy_eq (s : Sign) (m : ℕ) (e : ℤ) (acc : Accuracy) :
    roundWithAccuracy .binary64 s m e acc =
      carried s (shiftToTargetExponent .binary64 m e acc).1.roundedMantissa
        (shiftToTargetExponent .binary64 m e acc).2 := rfl

theorem targetExponent_eq (m : ℕ) (e : ℤ) :
    Format.binary64.targetExponent (totalExponent m e) = max (m.log2 + 1 + e - 53) (-1074) := rfl

theorem log2_le (h : m < 2 ^ 53) : m.log2 ≤ 52 := by
  by_cases zero : m = 0
  · simp [zero]
  · exact Nat.lt_succ_iff.1 ((Nat.log2_lt zero).2 h)

theorem carried_of_lt {s : Sign} (bits : m < 2 ^ 53) (least : -1074 ≤ e) :
    carried s m e = if h : m = 0 then .zero s else .finite s m e (Nat.pos_of_ne_zero h) := by
  have log := log2_le bits
  have still : (max (m.log2 + 1 + e - 53) (-1074) - e).toNat = 0 := by omega
  simp only [carried, shiftToTargetExponent, targetExponent_eq, shiftToExponent, still]
  show (if h : m = 0 then _ else UnpackedFloat.finite s m (e + 0) _) = _
  simp only [add_zero]

theorem carried_of_eq {s : Sign} (least : -1074 ≤ e) :
    carried s (2 ^ 53) e = .finite s (2 ^ 52) (e + 1) (by norm_num) := by
  have log : (2 ^ 53).log2 = 53 := Nat.log2_two_pow
  have once : (max ((2 ^ 53).log2 + 1 + e - 53) (-1074) - e).toNat = 1 := by
    rw [log]
    omega
  simp only [carried, shiftToTargetExponent, targetExponent_eq, shiftToExponent, once]
  rfl

theorem rational?_carried (bits : m ≤ 2 ^ 53) (least : -1074 ≤ e) :
    rational? (carried .positive m e) = some (m * 2 ^ e : ℚ) := by
  rcases bits.lt_or_eq with bits | rfl
  · rw [carried_of_lt bits least]
    split
    · rename_i none
      simp [rational?, none]
    · simp [rational?, Sign.apply]
  · rw [carried_of_eq least, rational?, zpow_add_one₀ (by norm_num)]
    simp only [Sign.apply, Option.some.injEq]
    push_cast
    ring

theorem le_of_scaled_le_largest (full : 2 ^ 52 ≤ m) (h : (m : ℚ) * 2 ^ e ≤ largest) : e ≤ 971 := by
  by_contra above
  have scale : (2 : ℚ) ^ ((971 : ℤ) + 1) ≤ 2 ^ e := zpow_le_zpow_right₀ (by norm_num) (by omega)
  have full : (2 : ℚ) ^ 52 ≤ m := by exact_mod_cast full
  refine h.not_gt ?_
  calc largest < 2 ^ 53 * 2 ^ (971 : ℤ) := by rw [largest]; gcongr; norm_num
    _ = 2 ^ 52 * 2 ^ ((971 : ℤ) + 1) := by rw [zpow_add_one₀ (by norm_num)]; ring
    _ ≤ m * 2 ^ e := by gcongr

theorem canonical_carried (bits : m ≤ 2 ^ 53) (least : -1074 ≤ e) (full : e = -1074 ∨ 2 ^ 52 ≤ m)
    (h : (m : ℚ) * 2 ^ e ≤ largest) : Canonical (carried .positive m e) := by
  rcases bits.lt_or_eq with bits | rfl
  · rw [carried_of_lt bits least]
    split
    · exact .zero _
    · refine .finite bits least ?_ full.symm
      rcases full with rfl | full
      · norm_num
      · exact le_of_scaled_le_largest full h
  · rw [carried_of_eq least]
    refine .finite (by norm_num) (by omega) ?_ (.inl le_rfl)
    have carry : ((2 ^ 53 : ℕ) : ℚ) * 2 ^ e = (2 ^ 52 : ℕ) * 2 ^ (e + 1) := by
      rw [zpow_add_one₀ (by norm_num)]
      push_cast
      ring
    exact le_of_scaled_le_largest le_rfl (carry ▸ h)

theorem mantissa_ofMantissaAndAccuracy (m : ℕ) (acc : Accuracy) :
    (ExtendedMantissa.ofMantissaAndAccuracy m acc).mantissa = m := by
  rcases acc with _ | (_ | _ | _) <;> rfl

/-- The target exponent gives fifty-three bits to a number with the mantissa, or fewer if it is least. -/
theorem bounds_of_target {t : ℤ} (ht : t = max (m.log2 + 1 + e - 53) (-1074)) (he : e ≤ t)
    (low : m * 2 ^ e ≤ q) (high : q ≤ (m + 1) * 2 ^ e) :
    (t = -1074 ∨ 2 ^ 52 * 2 ^ t ≤ q) ∧ q ≤ 2 ^ 53 * 2 ^ t := by
  constructor
  · rcases eq_or_ne t (-1074) with least | above
    · exact .inl least
    · have some : m ≠ 0 := by
        rintro rfl
        simp at ht
        omega
      have bits : (2 : ℚ) ^ m.log2 ≤ m := by exact_mod_cast Nat.log2_self_le some
      refine .inr ?_
      calc (2 : ℚ) ^ 52 * 2 ^ t = 2 ^ ((52 : ℕ) + t) := by rw [zpow_add₀ (by norm_num), zpow_natCast]
        _ = 2 ^ ((m.log2 : ℤ) + e) := by congr 1; push_cast; omega
        _ = 2 ^ m.log2 * 2 ^ e := by rw [zpow_add₀ (by norm_num), zpow_natCast]
        _ ≤ m * 2 ^ e := by gcongr
        _ ≤ q := low
  · have bits : (m : ℚ) + 1 ≤ 2 ^ (m.log2 + 1) := by exact_mod_cast Nat.lt_log2_self
    calc q ≤ (m + 1) * 2 ^ e := high
      _ ≤ 2 ^ (m.log2 + 1) * 2 ^ e := by gcongr
      _ = 2 ^ ((m.log2 + 1 : ℕ) + e) := by rw [zpow_add₀ (by norm_num), zpow_natCast]
      _ ≤ 2 ^ ((53 : ℕ) + t) := zpow_le_zpow_right₀ (by norm_num) (by push_cast; omega)
      _ = 2 ^ 53 * 2 ^ t := by rw [zpow_add₀ (by norm_num), zpow_natCast]

/-- A mantissa with its accuracy is rounded to the nearest double. -/
theorem rounded_roundWithAccuracy (he : e ≤ max (m.log2 + 1 + e - 53) (-1074))
    (h : Represents (.ofMantissaAndAccuracy m acc) (q / 2 ^ e)) :
    Rounded (roundWithAccuracy .binary64 .positive m e acc) q := by
  obtain ⟨t, ht⟩ : ∃ t, t = max (m.log2 + 1 + e - 53) (-1074) := ⟨_, rfl⟩
  rw [← ht] at he
  have shift : (e + (t - e).toNat : ℤ) = t := by omega
  have shifted : shiftToTargetExponent .binary64 m e acc =
      (ExtendedMantissa.ofMantissaAndAccuracy m acc >>> (t - e).toNat, t) := by
    simp only [shiftToTargetExponent, targetExponent_eq, shiftToExponent, ← ht, shift]
  have represents :
      Represents (ExtendedMantissa.ofMantissaAndAccuracy m acc >>> (t - e).toNat) (q / 2 ^ t) := by
    have : (2 : ℚ) ^ t = 2 ^ e * 2 ^ (t - e).toNat := by
      rw [← zpow_natCast, ← zpow_add₀ (by norm_num), shift]
    rw [this, ← div_div]
    exact h.shiftRight _
  have least : -1074 ≤ t := by omega
  have scale : (0 : ℚ) < 2 ^ e := by positivity
  have unit : (0 : ℚ) < 2 ^ t := by positivity
  obtain ⟨low, high⟩ := h.bounds
  rw [mantissa_ofMantissaAndAccuracy] at low high
  obtain ⟨full, above⟩ := bounds_of_target ht he ((le_div_iff₀ scale).1 low)
    ((div_le_iff₀ scale).1 high.le)
  rw [roundWithAccuracy_eq, shifted]
  generalize ExtendedMantissa.ofMantissaAndAccuracy m acc >>> (t - e).toNat = em at represents
  have near := abs_le.1 represents.near
  have bits : em.roundedMantissa ≤ 2 ^ 53 := by
    have := (div_le_iff₀ unit).2 above
    have : (em.roundedMantissa : ℚ) < (2 ^ 53 : ℕ) + 1 := by
      push_cast
      linarith
    exact Nat.lt_succ_iff.1 (by exact_mod_cast this)
  refine ⟨⟨em.roundedMantissa, t, least, full, represents.near⟩, ?_, ?_⟩
  · exact rational?_carried bits least
  · refine canonical_carried bits least (full.imp_right fun full => ?_)
    have := (le_div_iff₀ unit).2 full
    have : ((2 ^ 52 : ℕ) : ℚ) < em.roundedMantissa + 1 := by
      push_cast
      linarith
    exact Nat.lt_succ_iff.1 (by exact_mod_cast this)

end Operations

end DesignTokens.Binary64
