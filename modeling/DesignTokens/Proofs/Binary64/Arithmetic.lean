import Mathlib
import DesignTokens.Proofs.Binary64.Rounding

/-!
# Sums, products, quotients and decimals

The sum, the product and the quotient of two positive doubles and the double of a positive decimal are
the exact number rounded once, as long as it is in the range of the doubles.
-/

namespace DesignTokens.Binary64

open Float.Model Float.Model.UnpackedFloat

section Operations

variable {m n : ℕ} {e f : ℤ}

theorem rounded_mul (hm : 0 < m) (hn : 0 < n)
    (he : e + f ≤ max ((m * n).log2 + 1 + (e + f) - 53) (-1074)) :
    Rounded (UnpackedFloat.mul .binary64 (.finite .positive m e hm) (.finite .positive n f hn))
      (m * 2 ^ e * (n * 2 ^ f)) := by
  refine rounded_roundWithAccuracy he ?_
  have : (m * 2 ^ e * (n * 2 ^ f) : ℚ) / 2 ^ (e + f) = (m * n : ℕ) := by
    rw [zpow_add₀ (by norm_num)]
    push_cast
    field_simp
  rw [this]
  exact .ofNat _

/-- The quotient that a division computes has fifty-three bits, or fewer at the least exponent. -/
theorem divCore_bits {t : ℤ} (hm : 0 < m) (hn : 0 < n) (ht : t ≤ e - f)
    (target : t ≤ max (m.log2 + 1 + e - (n.log2 + 1 + f) - 53) (-1074)) :
    t ≤ max (((m <<< (e - f - t).toNat / n).log2 : ℤ) + 1 + t - 53) (-1074) := by
  rcases le_or_gt t (-1074) with least | above
  · omega
  · have shift : n.log2 + 1 + 52 ≤ m.log2 + (e - f - t).toNat := by omega
    have some : 2 ^ 52 ≤ m <<< (e - f - t).toNat / n := by
      rw [Nat.le_div_iff_mul_le hn, Nat.shiftLeft_eq]
      calc 2 ^ 52 * n ≤ 2 ^ 52 * 2 ^ (n.log2 + 1) := by gcongr; exact Nat.lt_log2_self.le
        _ = 2 ^ (n.log2 + 1 + 52) := by rw [← Nat.pow_add, Nat.add_comm]
        _ ≤ 2 ^ (m.log2 + (e - f - t).toNat) := Nat.pow_le_pow_right (by norm_num) shift
        _ = 2 ^ m.log2 * 2 ^ (e - f - t).toNat := Nat.pow_add ..
        _ ≤ m * 2 ^ (e - f - t).toNat := by gcongr; exact Nat.log2_self_le hm.ne'
    have bits := (Nat.le_log2 (Nat.ne_of_gt (Nat.lt_of_lt_of_le (by norm_num) some))).2 some
    omega

theorem rounded_div (hm : 0 < m) (hn : 0 < n) :
    Rounded (UnpackedFloat.div .binary64 (.finite .positive m e hm) (.finite .positive n f hn))
      (m * 2 ^ e / (n * 2 ^ f)) := by
  obtain ⟨t, ht⟩ : ∃ t, t = min (e - f) (max (m.log2 + 1 + e - (n.log2 + 1 + f) - 53) (-1074)) :=
    ⟨_, rfl⟩
  have core : divCore .binary64 m e n f = (m <<< (e - f - t).toNat / n, t,
      accuracyOfFraction (m <<< (e - f - t).toNat % n) n) := by
    rw [ht]
    rfl
  have bits := divCore_bits hm hn (by omega : t ≤ e - f) (by omega)
  show Rounded (roundWithAccuracy .binary64 .positive (divCore .binary64 m e n f).1
    (divCore .binary64 m e n f).2.1 (divCore .binary64 m e n f).2.2) _
  rw [core]
  refine rounded_roundWithAccuracy bits ?_
  have : (m * 2 ^ e / (n * 2 ^ f) : ℚ) / 2 ^ t = (m <<< (e - f - t).toNat : ℕ) / n := by
    have split : e = ((e - f - t).toNat : ℤ) + f + t := by omega
    rw [Nat.shiftLeft_eq]
    conv_lhs => rw [split, zpow_add₀ (by norm_num), zpow_add₀ (by norm_num), zpow_natCast]
    push_cast
    field_simp
  rw [this]
  exact .ofFraction _ hn

theorem log2_le_log2_shiftLeft (hm : 0 < m) (k : ℕ) : m.log2 + k ≤ (m <<< k).log2 := by
  have some : 0 < m <<< k := Nat.shiftLeft_pos_iff.2 hm
  rw [Nat.le_log2 some.ne', Nat.shiftLeft_eq, Nat.pow_add]
  exact Nat.mul_le_mul_right _ (Nat.log2_self_le hm.ne')

/-- A mantissa with too few bits or too many is brought to fifty-three. -/
theorem rounded_round (hm : 0 < m) (e : ℤ) :
    Rounded (UnpackedFloat.round .binary64 .positive m e) (m * 2 ^ e) := by
  obtain ⟨k, hk⟩ : ∃ k, k = (e - max ((m.log2 : ℤ) + 1 + e - 53) (-1074)).toNat := ⟨_, rfl⟩
  have whole : UnpackedFloat.round .binary64 .positive m e =
      roundWithAccuracy .binary64 .positive (m <<< k) (e - k) .exact := by
    rw [hk]
    rfl
  have bits := log2_le_log2_shiftLeft hm k
  rw [whole]
  refine rounded_roundWithAccuracy (by omega) ?_
  have : (m * 2 ^ e : ℚ) / 2 ^ (e - k : ℤ) = (m <<< k : ℕ) := by
    rw [zpow_sub₀ (by norm_num), zpow_natCast, Nat.shiftLeft_eq]
    push_cast
    field_simp
  rw [this]
  exact .ofNat _

theorem normalize_of_pos (hm : 0 < m) (e : ℤ) :
    UnpackedFloat.normalize .binary64 m e .positive = UnpackedFloat.round .binary64 .positive m e := by
  rw [UnpackedFloat.normalize, Int.compare_eq_gt.2 (by omega)]
  rfl

theorem rounded_ofNat (hm : 0 < m) : Rounded (UnpackedFloat.ofNat .binary64 m) m := by
  have rounded := rounded_round hm 0
  rw [← normalize_of_pos hm, zpow_zero, mul_one] at rounded
  exact rounded

theorem rounded_add (hm : 0 < m) (hn : 0 < n) :
    Rounded (UnpackedFloat.add .binary64 (.finite .positive m e hm) (.finite .positive n f hn))
      (m * 2 ^ e + n * 2 ^ f) := by
  obtain ⟨t, ht⟩ : ∃ t, t = min e f := ⟨_, rfl⟩
  have some : 0 < m <<< (e - t).toNat + n <<< (f - t).toNat :=
    Nat.add_pos_left (Nat.shiftLeft_pos_iff.2 hm) _
  have whole : UnpackedFloat.add .binary64 (.finite .positive m e hm) (.finite .positive n f hn) =
      UnpackedFloat.round .binary64 .positive (m <<< (e - t).toNat + n <<< (f - t).toNat) t := by
    rw [← normalize_of_pos some, ht, Nat.cast_add]
    rfl
  have exact_ : (m * 2 ^ e + n * 2 ^ f : ℚ) =
      (m <<< (e - t).toNat + n <<< (f - t).toNat : ℕ) * 2 ^ t := by
    have first : e = ((e - t).toNat : ℤ) + t := by omega
    have second : f = ((f - t).toNat : ℤ) + t := by omega
    conv_lhs => rw [first, second, zpow_add₀ (by norm_num), zpow_add₀ (by norm_num), zpow_natCast,
      zpow_natCast]
    rw [Nat.shiftLeft_eq, Nat.shiftLeft_eq]
    push_cast
    ring
  rw [whole, exact_]
  exact rounded_round some t

end Operations

section Doubles

variable {x y : Float} {p q : ℚ}

theorem value?_of_rounded {u : UnpackedFloat} (h : Rounded u q) (bound : q ≤ largest) :
    ∃ r : Rounding q, value? (.ofModel (.pack u)) = some r.value := by
  obtain ⟨r, value, canonical⟩ := h
  exact ⟨r, (value?_pack (canonical (r.value_le_largest bound))).trans value⟩

theorem exists_unpack_of_value? (h : value? x = some p) (hp : 0 < p) :
    ∃ m e hm, x.toModel.unpack = .finite .positive m e hm ∧ p = m * 2 ^ e ∧
      (2 ^ 52 ≤ m ∨ e = -1074) := by
  have canonical := canonical x
  rw [value?] at h
  generalize x.toModel.unpack = u at h canonical
  cases canonical with
  | notANumber | infinity => simp [rational?] at h
  | zero s =>
    simp only [rational?, Option.some.injEq] at h
    exact absurd h hp.ne
  | @finite s m e hm mantissa least greatest full =>
    simp only [rational?, Option.some.injEq] at h
    cases s with
    | positive => exact ⟨m, e, hm, rfl, by simpa [Sign.apply] using h.symm, full⟩
    | negative =>
      have : (0 : ℚ) < m * 2 ^ e := by positivity
      simp only [Sign.apply, Int.cast_neg, Int.cast_natCast] at h
      linarith

/-- A sum is the double nearest to the exact one. -/
theorem value?_add (hx : value? x = some p) (hy : value? y = some q) (hp : 0 < p) (hq : 0 < q)
    (bound : p + q ≤ largest) : ∃ r : Rounding (p + q), value? (x + y) = some r.value := by
  obtain ⟨m, e, hm, first, rfl, -⟩ := exists_unpack_of_value? hx hp
  obtain ⟨n, f, hn, second, rfl, -⟩ := exists_unpack_of_value? hy hq
  have whole : x + y = .ofModel (.pack (UnpackedFloat.add .binary64 (.finite .positive m e hm)
      (.finite .positive n f hn))) := by
    rw [← first, ← second]
    rfl
  rw [whole]
  exact value?_of_rounded (rounded_add hm hn) bound

/-- A quotient is the double nearest to the exact one. -/
theorem value?_div (hx : value? x = some p) (hy : value? y = some q) (hp : 0 < p) (hq : 0 < q)
    (bound : p / q ≤ largest) : ∃ r : Rounding (p / q), value? (x / y) = some r.value := by
  obtain ⟨m, e, hm, first, rfl, -⟩ := exists_unpack_of_value? hx hp
  obtain ⟨n, f, hn, second, rfl, -⟩ := exists_unpack_of_value? hy hq
  have whole : x / y = .ofModel (.pack (UnpackedFloat.div .binary64 (.finite .positive m e hm)
      (.finite .positive n f hn))) := by
    rw [← first, ← second]
    rfl
  rw [whole]
  exact value?_of_rounded (rounded_div hm hn) bound

/-- A double is divided by one without being rounded. -/
theorem value?_div_one (hx : value? x = some p) (hp : 0 < p) (bound : p ≤ largest) :
    value? (x / 1) = some p := by
  obtain ⟨r, value⟩ := value?_div hx value?_one hp one_pos (by rwa [div_one])
  obtain ⟨m, e, mantissa, least, -, same⟩ := isDouble_of_value? hx hp.le
  rw [value, r.value_eq mantissa least (by rw [div_one, same]), div_one]

/-- A product is the double nearest to the exact one. -/
theorem value?_mul (hx : value? x = some p) (hy : value? y = some q) (hp : 0 < p) (hq : 0 < q)
    (bound : p * q ≤ largest) : ∃ r : Rounding (p * q), value? (x * y) = some r.value := by
  obtain ⟨m, e, hm, first, rfl, full⟩ := exists_unpack_of_value? hx hp
  obtain ⟨n, f, hn, second, rfl, full'⟩ := exists_unpack_of_value? hy hq
  have whole : x * y = .ofModel (.pack (UnpackedFloat.mul .binary64 (.finite .positive m e hm)
      (.finite .positive n f hn))) := by
    rw [← first, ← second]
    rfl
  -- one of the factors has fifty-three bits, or both have the least exponent
  have bits : 52 ≤ (m * n).log2 ∨ e + f ≤ -1074 := by
    have some : m * n ≠ 0 := (Nat.mul_pos hm hn).ne'
    rcases full with large | rfl
    · exact .inl ((Nat.le_log2 some).2 (large.trans (Nat.le_mul_of_pos_right m hn)))
    · rcases full' with large | rfl
      · exact .inl ((Nat.le_log2 some).2 (large.trans (Nat.le_mul_of_pos_left n hm)))
      · exact .inr (by norm_num)
  rw [whole]
  exact value?_of_rounded (rounded_mul hm hn (by omega)) bound

theorem two_pow_le_largest : (2 : ℚ) ^ 53 ≤ largest := by
  have unit : (2 : ℚ) ^ (1 : ℤ) ≤ 2 ^ (971 : ℤ) := zpow_le_zpow_right₀ (by norm_num) (by norm_num)
  rw [zpow_one] at unit
  calc (2 : ℚ) ^ 53 ≤ (2 ^ 53 - 1) * 2 := by norm_num
    _ ≤ largest := mul_le_mul_of_nonneg_left unit (by norm_num)

/-- A natural number of fifty-three bits is a double. -/
theorem value?_toFloat {n : ℕ} (hn : n < 2 ^ 53) : value? n.toUInt64.toFloat = some (n : ℚ) := by
  have whole : n.toUInt64.toFloat = .ofModel (.pack (UnpackedFloat.ofNat .binary64 n)) := by
    have : n.toUInt64.toNat = n := Nat.mod_eq_of_lt (by omega)
    show Float.ofModel (.pack (UnpackedFloat.ofNat .binary64 n.toUInt64.toNat)) = _
    rw [this]
  rcases Nat.eq_zero_or_pos n with rfl | pos
  · rw [whole]
    exact value?_pack (.zero _)
  · have bits : (n : ℚ) ≤ 2 ^ 53 := by exact_mod_cast hn.le
    obtain ⟨r, value⟩ := value?_of_rounded (rounded_ofNat pos) (bits.trans two_pow_le_largest)
    have exact_ : r.value = n := r.value_eq (j := 0) hn (by norm_num) (by simp)
    rw [whole, value, exact_]

/-- Whether a double is a natural number, told by its scaled integer. -/
def isNatural (n : ℕ) (x : Float) : Bool :=
  match view x with
  | .finite false m e => decide (-52 ≤ e) && m * 2 ^ (e + 52).toNat == n * 2 ^ 52
  | _ => false

theorem value?_of_isNatural {n : ℕ} (h : isNatural n x = true) : value? x = some (n : ℚ) := by
  rw [isNatural] at h
  split at h
  · rename_i m e viewed
    simp only [Bool.and_eq_true, decide_eq_true_eq, beq_iff_eq] at h
    obtain ⟨least, scaled⟩ := h
    have shift : e = ((e + 52).toNat : ℤ) - (52 : ℕ) := by omega
    have scaled : (m : ℚ) * 2 ^ (e + 52).toNat = n * 2 ^ 52 := by exact_mod_cast scaled
    refine (value?_of_view viewed).trans (congrArg some ?_)
    rw [if_neg (by decide), shift, zpow_sub₀ (by norm_num), zpow_natCast, zpow_natCast,
      ← mul_div_assoc, scaled, mul_div_cancel_right₀ _ (by norm_num)]
  · cases h

theorem isNatural_powerOfTen : ∀ k : Fin Float.exactlyRepresentablePowersOfTen.size,
    isNatural (10 ^ k.val) (Float.exactlyRepresentablePowersOfTen[k]) = true := by
  decide +kernel

/-- The powers of ten that decimals are scaled with are doubles. -/
theorem value?_powerOfTen {k : ℕ} (hk : k < Float.exactlyRepresentablePowersOfTen.size) :
    value? (Float.exactlyRepresentablePowersOfTen[k]) = some (10 ^ k) := by
  simpa using value?_of_isNatural (isNatural_powerOfTen ⟨k, hk⟩)

section Decimals

variable {n : ℕ} {e : ℤ}

theorem scaled_of_neg (he : e < 0) : (n : ℚ) * 10 ^ e = n / 10 ^ e.natAbs := by
  have : e = -(e.natAbs : ℤ) := by omega
  conv_lhs => rw [this, zpow_neg, zpow_natCast]
  rw [div_eq_mul_inv]

theorem scaled_of_nonneg (he : 0 ≤ e) : (n : ℚ) * 10 ^ e = n * 10 ^ e.natAbs := by
  have : e = (e.natAbs : ℤ) := by omega
  conv_lhs => rw [this, zpow_natCast]

theorem rounded_ofScientific (hn : 0 < n) (low : -(2048 + n.log2) ≤ e) (high : e ≤ 2048) :
    Rounded (UnpackedFloat.ofScientific .binary64 n e) (n * 10 ^ e) := by
  have ten : 0 < 10 ^ e.natAbs := Nat.pow_pos (by norm_num)
  rw [UnpackedFloat.ofScientific, dif_neg hn.ne', if_neg (by norm_num; omega),
    if_neg (by norm_num; omega)]
  split
  · rename_i he
    have magnitude : e.toNat = e.natAbs := by omega
    have some : 0 < n <<< 53 := Nat.shiftLeft_pos_iff.2 hn
    have bits : 53 ≤ (n <<< 53 * 10 ^ e.natAbs).log2 := by
      rw [Nat.le_log2 (Nat.mul_pos some ten).ne', Nat.shiftLeft_eq]
      calc 2 ^ 53 ≤ n * 2 ^ 53 := Nat.le_mul_of_pos_left _ hn
        _ ≤ n * 2 ^ 53 * 10 ^ e.natAbs := Nat.le_mul_of_pos_right _ ten
    have rounded := rounded_mul (e := -53) (f := 0) some ten (by omega)
    have whole : ((n <<< 53 : ℕ) * 2 ^ (-53 : ℤ) * ((10 ^ e.natAbs : ℕ) * 2 ^ (0 : ℤ)) : ℚ) =
        n * 10 ^ e := by
      rw [scaled_of_nonneg he, Nat.shiftLeft_eq, zpow_neg, zpow_zero]
      push_cast
      field_simp
    rw [whole] at rounded
    simp only [magnitude]
    exact rounded
  · rename_i he
    have magnitude : (-e).toNat = e.natAbs := by omega
    have rounded := rounded_div (e := 0) (f := 0) hn ten
    have whole : ((n : ℚ) * 2 ^ (0 : ℤ) / ((10 ^ e.natAbs : ℕ) * 2 ^ (0 : ℤ))) = n * 10 ^ e := by
      rw [scaled_of_neg (by omega)]
      push_cast
      norm_num
    rw [whole] at rounded
    simp only [magnitude]
    exact rounded

/-- A decimal is read as the double nearest to it. -/
theorem value?_ofScientific (hn : 0 < n) (low : -(2048 + n.log2) ≤ e) (high : e ≤ 2048)
    (bound : (n : ℚ) * 10 ^ e ≤ largest) :
    ∃ r : Rounding (n * 10 ^ e), value? (Float.ofScientific n (e < 0) e.natAbs) = some r.value := by
  have pos : (0 : ℚ) < n := by exact_mod_cast hn
  have ten : (0 : ℚ) < 10 ^ e.natAbs := by positivity
  rw [Float.ofScientific]
  split
  · rename_i small
    obtain ⟨bits, range⟩ := small
    have power := value?_powerOfTen (k := e.natAbs) (Nat.lt_succ_of_le range)
    by_cases he : e < 0
    · rw [scaled_of_neg he] at bound ⊢
      rw [if_pos (by simpa using he)]
      exact value?_div (value?_toFloat bits) power pos ten bound
    · rw [scaled_of_nonneg (not_lt.1 he)] at bound ⊢
      rw [if_neg (by simpa using he)]
      exact value?_mul (value?_toFloat bits) power pos ten bound
  · have signed : (if decide (e < 0) then Int.negOfNat e.natAbs else Int.ofNat e.natAbs) = e := by
      split <;> rename_i he <;> rw [decide_eq_true_eq] at he
      · rw [Int.negOfNat_eq, Int.ofNat_eq_natCast]
        omega
      · rw [Int.ofNat_eq_natCast]
        omega
    rw [signed]
    exact value?_of_rounded (rounded_ofScientific hn low high) bound

/-- A natural number of fifty-three bits is the value of its literal. -/
theorem value?_ofNat (hn : n < 2 ^ 53) : value? (Float.ofNat n) = some (n : ℚ) := by
  rcases Nat.eq_zero_or_pos n with rfl | pos
  · exact value?_zero
  · have bits : (n : ℚ) ≤ 2 ^ 53 := by exact_mod_cast hn.le
    have scale : (n : ℚ) * 10 ^ (0 : ℤ) = n * 2 ^ (0 : ℤ) := by simp
    obtain ⟨r, value⟩ := value?_ofScientific (e := 0) pos (by omega) (by norm_num)
      (by simpa using bits.trans two_pow_le_largest)
    rw [r.value_eq hn (by norm_num) scale, zpow_zero, mul_one] at value
    exact value

end Decimals

end Doubles

end DesignTokens.Binary64
