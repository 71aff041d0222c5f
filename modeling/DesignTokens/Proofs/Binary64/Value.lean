import Mathlib
import DesignTokens.Binary64
import DesignTokens.Proofs.Binary64

/-!
# The value of a double

A finite double stands for a rational number. The library reads a double as a scaled integer off its
bits, and arithmetic takes it apart and packs the result; here both are tied to that number. Packing
loses nothing of a result that has its fifty-three bits, or fewer at the least exponent, and is in range.
-/

namespace DesignTokens.Binary64

open Float.Model Float.Model.UnpackedFloat

section Unpacked

/-- The unpacked doubles that are packed and unpacked again without loss. -/
inductive Canonical : UnpackedFloat → Prop where
  | notANumber : Canonical .notANumber
  | infinity (s : Sign) : Canonical (.infinity s)
  | zero (s : Sign) : Canonical (.zero s)
  | finite {s : Sign} {m : ℕ} {e : ℤ} {h : 0 < m} (mantissa : m < 2 ^ 53) (least : -1074 ≤ e)
      (greatest : e ≤ 971) (full : 2 ^ 52 ≤ m ∨ e = -1074) : Canonical (.finite s m e h)

/-- The number that an unpacked double stands for, if it is finite. -/
def rational? : UnpackedFloat → Option ℚ
  | .zero _ => some 0
  | .finite s m e _ => some (s.apply m * 2 ^ e)
  | _ => none

/-- An unpacked double as a scaled integer. -/
def viewed : UnpackedFloat → View
  | .notANumber => .nan
  | .infinity s => .infinite (s == .negative)
  | .zero s => .finite (s == .negative) 0 (-1074)
  | .finite s m e _ => .finite (s == .negative) m e

@[simp] theorem exponentBias_binary64 : Format.binary64.exponentBias = 1023 := rfl

@[simp] theorem mantissaBits_binary64 : Format.binary64.mantissaBits = 53 := rfl

@[simp] theorem minExponent_binary64 : Format.binary64.minExponent = -1074 := rfl

variable {b : BitVec Format.binary64.numBits}

theorem toNat_unpackMantissa : (unpackMantissa b).toNat = b.toNat % 2 ^ 52 := by
  simp [unpackMantissa]

theorem toNat_unpackExponent : (unpackExponent b).toNat = b.toNat / 2 ^ 52 % 2 ^ 11 := by
  simp [unpackExponent, Nat.shiftRight_eq_div_pow]

theorem ofBitVec_unpackSign :
    (Sign.ofBitVec (unpackSign b) == .negative) = decide (2 ^ 63 ≤ b.toNat) := by
  have below : b.toNat < 2 ^ 64 := b.isLt
  have sign : (unpackSign b).toNat = b.toNat / 2 ^ 63 % 2 := by
    simp [unpackSign, Nat.shiftRight_eq_div_pow]
  by_cases h : 2 ^ 63 ≤ b.toNat
  · have : unpackSign b = 1#1 := by
      rw [BitVec.toNat_eq, sign]
      simp
      omega
    simp only [this, h]
    rfl
  · have : unpackSign b = 0#1 := by
      rw [BitVec.toNat_eq, sign]
      simp
      omega
    simp only [this, h]
    rfl

theorem toNat_implicit (fraction : BitVec 52) :
    (1#1 ++ fraction).toNat = 2 ^ 52 + fraction.toNat := by
  rw [BitVec.toNat_append, ← Nat.shiftLeft_add_eq_or_of_lt fraction.isLt]
  rfl

theorem canonical_unpack (b : BitVec Format.binary64.numBits) :
    Canonical (unpack .binary64 b) := by
  have scale : (unpackExponent b).toNat < 2048 := (unpackExponent b).isLt
  have fraction : (unpackMantissa b).toNat < 2 ^ 52 := (unpackMantissa b).isLt
  have implicit := toNat_implicit (unpackMantissa b)
  rw [UnpackedFloat.unpack]
  split
  · split
    · exact .infinity _
    · exact .notANumber
  · rename_i not_top
    split
    · rename_i bottom
      split
      · exact .zero _
      · have : (unpackExponent b).toNat = 0 := by rw [bottom]; rfl
        exact .finite (by omega) (by simp; omega) (by simp; omega) (.inr (by simp; omega))
    · rename_i not_bottom
      have not_top : (unpackExponent b).toNat ≠ 2047 := fun h => not_top (BitVec.eq_of_toNat_eq h)
      have not_bottom : (unpackExponent b).toNat ≠ 0 := fun h =>
        not_bottom (BitVec.eq_of_toNat_eq h)
      exact .finite (by omega) (by simp; omega) (by simp; omega) (.inl (by omega))

/-- A double as a scaled integer is the one that its bits unpack to. -/
theorem view_eq (x : Float) : view x = viewed x.toModel.unpack := by
  let b : BitVec Format.binary64.numBits := x.toModel.toBits.toBitVec
  have scale : (unpackExponent b).toNat = x.toBits.toNat / 2 ^ 52 % 2 ^ 11 := toNat_unpackExponent
  have fraction : (unpackMantissa b).toNat = x.toBits.toNat % 2 ^ 52 := toNat_unpackMantissa
  have sign : (Sign.ofBitVec (unpackSign b) == .negative) = decide (2 ^ 63 ≤ x.toBits.toNat) :=
    ofBitVec_unpackSign
  have top : unpackExponent b = -1#_ ↔ x.toBits.toNat / 2 ^ 52 % 2 ^ 11 = 2047 := by
    rw [← scale]
    exact BitVec.toNat_eq
  have bottom : unpackExponent b = 0#_ ↔ x.toBits.toNat / 2 ^ 52 % 2 ^ 11 = 0 := by
    rw [← scale]
    exact BitVec.toNat_eq
  have whole : unpackMantissa b = 0#_ ↔ x.toBits.toNat % 2 ^ 52 = 0 := by
    rw [← fraction]
    exact BitVec.toNat_eq
  show view x = viewed (UnpackedFloat.unpack .binary64 b)
  unfold view UnpackedFloat.unpack
  simp only [Nat.pow_eq, top, bottom, whole]
  split_ifs with special none small none
  · simp only [viewed, sign]
  · rfl
  · simp only [viewed, sign, none]
  · simp only [viewed, sign, fraction, scale, small]
    rfl
  · simp only [viewed, sign, toNat_implicit (unpackMantissa b), fraction, scale]
    rfl

theorem unpackSign_packComponents (s : Sign) (e : BitVec 11) (m : BitVec 52) :
    Sign.ofBitVec (unpackSign (packComponents .binary64 s e m)) = s := by
  simp only [unpackSign, packComponents, BitVec.extractLsb]
  rw [BitVec.extractLsb'_append_eq_of_le (by omega), BitVec.extractLsb'_append_eq_of_le (by omega)]
  cases s <;> rfl

/-- A normal number is packed with its exponent and without its first bit. -/
theorem unpack_packComponents_normal {s : Sign} {m : ℕ} {e : ℤ} (h : 0 < m) (full : 2 ^ 52 ≤ m)
    (mantissa : m < 2 ^ 53) (least : -1074 ≤ e) (greatest : e ≤ 971) :
    unpack .binary64 (packComponents .binary64 s (BitVec.ofNat _ (e + 1075).toNat) (BitVec.ofNat _ m)) =
      .finite s m e h := by
  have scale : (BitVec.ofNat 11 (e + 1075).toNat).toNat = (e + 1075).toNat := by
    rw [BitVec.toNat_ofNat, Nat.mod_eq_of_lt (by omega)]
  have fraction : (1#1 ++ BitVec.ofNat 52 m).toNat = m := by
    rw [toNat_implicit, BitVec.toNat_ofNat]
    omega
  have not_top : BitVec.ofNat 11 (e + 1075).toNat ≠ -1#11 := by
    rw [ne_eq, BitVec.toNat_eq, scale]
    show _ ≠ 2047
    omega
  have not_bottom : BitVec.ofNat 11 (e + 1075).toNat ≠ 0#11 := by
    rw [ne_eq, BitVec.toNat_eq, scale]
    show _ ≠ 0
    omega
  rw [UnpackedFloat.unpack]
  simp only [unpackMantissa_packComponents, unpackExponent_packComponents, unpackSign_packComponents,
    if_neg not_top, if_neg not_bottom, fraction, scale, exponentBias_binary64]
  congr 1
  omega

/-- A subnormal number is packed with the exponent field zero. -/
theorem unpack_packComponents_subnormal {s : Sign} {m : ℕ} (h : 0 < m) (small : m < 2 ^ 52) :
    unpack .binary64 (packComponents .binary64 s 0#_ (BitVec.ofNat _ m)) = .finite s m (-1074) h := by
  have fraction : (BitVec.ofNat 52 m).toNat = m := by
    rw [BitVec.toNat_ofNat, Nat.mod_eq_of_lt small]
  have some : BitVec.ofNat 52 m ≠ 0#52 := by
    rw [ne_eq, BitVec.toNat_eq, fraction]
    show _ ≠ 0
    omega
  have not_top : 0#11 ≠ -1#11 := by decide
  rw [UnpackedFloat.unpack]
  simp only [unpackMantissa_packComponents, unpackExponent_packComponents, unpackSign_packComponents,
    if_neg not_top, dif_neg some, fraction, exponentBias_binary64]
  rfl

theorem unpack_pack {u : UnpackedFloat} (h : Canonical u) : (Float.Model.pack u).unpack = u := by
  show unpack .binary64 (UnpackedFloat.pack .binary64 u) = u
  cases h with
  | notANumber => rfl
  | infinity s => cases s <;> rfl
  | zero s => cases s <;> rfl
  | @finite s m e h mantissa least greatest full =>
    have scale : (e + Format.binary64.exponentBias + Format.binary64.mantissaBitsWithoutImplicit).toNat =
        (e + 1075).toNat := by
      rw [exponentBias_binary64]
      simp only [Nat.cast_ofNat]
      omega
    rw [UnpackedFloat.pack]
    simp only [scale, mantissaBits_binary64]
    rw [if_neg (by simp; omega)]
    by_cases normal : 2 ^ 52 ≤ m
    · have bits : m.log2 = 52 := (Nat.log2_eq_iff h.ne').2 ⟨normal, mantissa⟩
      rw [if_pos (by omega)]
      exact unpack_packComponents_normal h normal mantissa least greatest
    · have bits : m.log2 < 52 := (Nat.log2_lt h.ne').2 (by omega)
      rw [if_neg (by omega), full.resolve_left normal]
      exact unpack_packComponents_subnormal h (by omega)

variable {u v : UnpackedFloat} {p q : ℚ}

/-- A number with the larger exponent is the larger one. -/
theorem scaled_lt {m n : ℕ} {e f : ℤ} (mantissa : m < 2 ^ 53) (full : 2 ^ 52 ≤ n) (h : e < f) :
    (m : ℚ) * 2 ^ e < n * 2 ^ f := by
  have mantissa : (m : ℚ) < 2 ^ 53 := by exact_mod_cast mantissa
  have full : (2 : ℚ) ^ 52 ≤ n := by exact_mod_cast full
  have step : (2 : ℚ) ^ (e + 1) ≤ 2 ^ f := zpow_le_zpow_right₀ (by norm_num) (by omega)
  have scale : (0 : ℚ) < 2 ^ e := by positivity
  calc (m : ℚ) * 2 ^ e < 2 ^ 53 * 2 ^ e := by gcongr
    _ = 2 ^ 52 * 2 ^ (e + 1) := by rw [zpow_add_one₀ (by norm_num)]; ring
    _ ≤ n * 2 ^ f := by gcongr

theorem compare_scaled {m n : ℕ} {e f : ℤ} (hm : m < 2 ^ 53) (he : -1074 ≤ e) (full : 2 ^ 52 ≤ m ∨ e = -1074)
    (hn : n < 2 ^ 53) (hf : -1074 ≤ f) (full' : 2 ^ 52 ≤ n ∨ f = -1074) :
    (compare e f).then (compare m n) = compare ((m : ℚ) * 2 ^ e) (n * 2 ^ f) := by
  rcases lt_trichotomy e f with h | rfl | h
  · rw [compare_lt_iff_lt.2 h, compare_lt_iff_lt.2 (scaled_lt hm (full'.resolve_right (by omega)) h)]
    rfl
  · have scale : (0 : ℚ) < 2 ^ e := by positivity
    rw [compare_eq_iff_eq.2 rfl]
    rcases lt_trichotomy m n with h | rfl | h
    · rw [compare_lt_iff_lt.2 h, compare_lt_iff_lt.2 (by gcongr)]
      rfl
    · rw [compare_eq_iff_eq.2 rfl, compare_eq_iff_eq.2 rfl]
      rfl
    · rw [compare_gt_iff_gt.2 h, compare_gt_iff_gt.2 (by gcongr)]
      rfl
  · rw [compare_gt_iff_gt.2 h, compare_gt_iff_gt.2 (scaled_lt hn (full.resolve_right (by omega)) h)]
    rfl

/-- Finite doubles compare as the numbers that they stand for. -/
theorem compare_eq (hu : Canonical u) (hv : Canonical v) (hp : rational? u = some p)
    (hq : rational? v = some q) : u.compare v = some (compare p q) := by
  have pos {m : ℕ} {e : ℤ} (h : 0 < m) : (0 : ℚ) < m * 2 ^ e := by positivity
  have neg {m : ℕ} {e : ℤ} (h : 0 < m) : -((m : ℚ) * 2 ^ e) < 0 := neg_lt_zero.2 (pos h)
  have lt {p q : ℚ} (h : p < q) : some Ordering.lt = some (compare p q) :=
    congrArg some (compare_lt_iff_lt.2 h).symm
  have gt {p q : ℚ} (h : q < p) : some Ordering.gt = some (compare p q) :=
    congrArg some (compare_gt_iff_gt.2 h).symm
  cases hu with
  | notANumber | infinity => simp [rational?] at hp
  | zero s =>
    obtain rfl : 0 = p := by simpa [rational?] using hp
    cases hv with
    | notANumber | infinity => simp [rational?] at hq
    | zero s' =>
      obtain rfl : 0 = q := by simpa [rational?] using hq
      rfl
    | @finite s' n f hn =>
      cases s' <;> obtain rfl : _ = q := by simpa [rational?, Sign.apply] using hq
      · exact gt (neg hn)
      · exact lt (pos hn)
  | @finite s m e hm mantissa least greatest full =>
    cases hv with
    | notANumber | infinity => simp [rational?] at hq
    | zero s' =>
      obtain rfl : 0 = q := by simpa [rational?] using hq
      cases s <;> obtain rfl : _ = p := by simpa [rational?, Sign.apply] using hp
      · exact lt (neg hm)
      · exact gt (pos hm)
    | @finite s' n f hn mantissa' least' greatest' full' =>
      have scaled := compare_scaled mantissa least full mantissa' least' full'
      cases s <;> obtain rfl : _ = p := by simpa [rational?, Sign.apply] using hp
      all_goals cases s' <;> obtain rfl : _ = q := by simpa [rational?, Sign.apply] using hq
      · show some ((compare e f).then (compare m n)).swap = _
        rw [scaled, ← Std.OrientedOrd.eq_swap]
        simp only [LinearOrder.compare_eq_compareOfLessAndEq, compareOfLessAndEq, neg_lt_neg_iff,
          neg_inj, eq_comm]
      · exact lt ((neg hm).trans (pos hn))
      · exact gt ((neg hn).trans (pos hm))
      · exact congrArg some scaled

/-- A finite double is between the infinities. -/
theorem compare_infinity (h : rational? u = some p) :
    (infinity .negative).compare u = some .lt ∧ u.compare (.infinity .positive) = some .lt := by
  cases u with
  | notANumber | infinity => simp [rational?] at h
  | zero | finite => exact ⟨rfl, rfl⟩

theorem apply_neg (s : Sign) (n : ℤ) : (-s).apply n = -s.apply n := by
  cases s with
  | negative => exact (neg_neg n).symm
  | positive => rfl

theorem Canonical.neg (h : Canonical u) : Canonical u.neg := by
  cases h with
  | notANumber => exact .notANumber
  | infinity s => exact .infinity _
  | zero s => exact .zero _
  | finite mantissa least greatest full => exact .finite mantissa least greatest full

theorem Canonical.abs (h : Canonical u) : Canonical u.abs := by
  cases h with
  | notANumber => exact .notANumber
  | infinity s => exact .infinity _
  | zero s => exact .zero _
  | finite mantissa least greatest full => exact .finite mantissa least greatest full

theorem rational?_neg (u : UnpackedFloat) : rational? u.neg = (rational? u).map (-·) := by
  cases u <;> simp [UnpackedFloat.neg, rational?, apply_neg]

theorem rational?_abs (u : UnpackedFloat) : rational? u.abs = (rational? u).map (|·|) := by
  cases u with
  | finite s => cases s <;> simp [UnpackedFloat.abs, rational?, Sign.apply, abs_mul]
  | _ => simp [UnpackedFloat.abs, rational?]

end Unpacked

section Value

variable {x y : Float} {p q : ℚ}

/-- The number that a double stands for, if it is finite. -/
def value? (x : Float) : Option ℚ := rational? x.toModel.unpack

theorem isFinite_iff : x.isFinite = true ↔ ∃ q, value? x = some q := by
  show x.toModel.unpack.isFinite = true ↔ _
  rw [value?]
  cases x.toModel.unpack <;> simp [UnpackedFloat.isFinite, rational?]

/-- A packed result stands for the number that it was. -/
theorem value?_pack {u : UnpackedFloat} (h : Canonical u) : value? (.ofModel (.pack u)) = rational? u :=
  congrArg rational? (unpack_pack h)

theorem canonical (x : Float) : Canonical x.toModel.unpack := canonical_unpack _

theorem value?_of_view {negative : Bool} {m : ℕ} {e : ℤ} (h : view x = .finite negative m e) :
    value? x = some (if negative then -(m * 2 ^ e : ℚ) else m * 2 ^ e) := by
  rw [view_eq] at h
  rw [value?]
  generalize x.toModel.unpack = u at h
  cases u with
  | notANumber | infinity => simp [viewed] at h
  | zero s =>
    simp only [viewed, View.finite.injEq] at h
    obtain ⟨-, rfl, -⟩ := h
    simp [rational?]
  | finite s m e =>
    simp only [viewed, View.finite.injEq] at h
    obtain ⟨rfl, rfl, rfl⟩ := h
    cases s <;> simp [rational?, Sign.apply]

/-- A finite double as a scaled integer. -/
theorem exists_view_of_value? (h : value? x = some q) :
    ∃ negative m e, view x = .finite negative m e ∧ m < 2 ^ 53 ∧ -1074 ≤ e ∧ e ≤ 971 := by
  have canonical := canonical x
  rw [value?] at h
  rw [view_eq]
  generalize x.toModel.unpack = u at h canonical
  cases canonical with
  | notANumber | infinity => simp [rational?] at h
  | zero s => exact ⟨_, _, _, rfl, by norm_num⟩
  | finite mantissa least greatest => exact ⟨_, _, _, rfl, mantissa, least, greatest⟩

/-- The mantissa of a finite double has all its bits unless the exponent is the least one. -/
theorem least_or_full {negative : Bool} {m : ℕ} {e : ℤ} (h : view x = .finite negative m e) :
    e = -1074 ∨ 2 ^ 52 ≤ m := by
  simp only [view] at h
  split_ifs at h
  · obtain ⟨-, -, rfl⟩ := View.finite.inj h
    exact .inl rfl
  · obtain ⟨-, rfl, -⟩ := View.finite.inj h
    exact .inr (Nat.le_add_right _ _)

/-- A number from zero on that is a double. -/
def IsDouble (q : ℚ) : Prop :=
  ∃ (m : ℕ) (e : ℤ), m < 2 ^ 53 ∧ -1074 ≤ e ∧ e ≤ 971 ∧ q = m * 2 ^ e

theorem isDouble_of_value? (h : value? x = some q) (nonneg : 0 ≤ q) : IsDouble q := by
  obtain ⟨negative, m, e, viewed, mantissa, least, greatest⟩ := exists_view_of_value? h
  have same := Option.some.inj (h.symm.trans (value?_of_view viewed))
  cases negative with
  | false => exact ⟨m, e, mantissa, least, greatest, same⟩
  | true =>
    have : (0 : ℚ) ≤ m * 2 ^ e := by positivity
    rw [if_pos rfl] at same
    exact ⟨0, 0, by norm_num, by norm_num, by norm_num, by push_cast; linarith⟩

/-- Finite doubles are ordered as the numbers that they stand for. -/
theorem lt_iff (hp : value? x = some p) (hq : value? y = some q) : x < y ↔ p < q := by
  have compared := compare_eq (canonical x) (canonical y) hp hq
  show Float.lt x y = true ↔ _
  rw [Float.lt, decide_eq_true_iff]
  show (x.toModel.unpack.compare y.toModel.unpack == some .lt) = true ↔ _
  rw [compared, beq_iff_eq, Option.some.injEq, compare_lt_iff_lt]

theorem value?_zero : value? 0 = some 0 := by
  have viewed : view 0 = .finite false 0 (-1074) := by decide
  simpa using value?_of_view viewed

theorem value?_one : value? 1 = some 1 := by
  have viewed : view 1 = .finite false (2 ^ 52) (-52) := by decide
  rw [value?_of_view viewed]
  norm_num

theorem value?_neg (x : Float) : value? (-x) = (value? x).map (-·) :=
  (value?_pack (canonical x).neg).trans (rational?_neg _)

theorem value?_abs (x : Float) : value? x.abs = (value? x).map (|·|) :=
  (value?_pack (canonical x).abs).trans (rational?_abs _)

theorem isNaN_of_value? (h : value? x = some p) : x.isNaN = false := by
  rw [value?] at h
  show x.toModel.unpack.isNaN = false
  cases unpacked : x.toModel.unpack with
  | notANumber => simp [unpacked, rational?] at h
  | infinity | zero | finite => rfl

end Value

section Clamp

variable {x low high : Float} {p q v : ℚ}

/-- A number that is neither below one finite double nor above another is finite. -/
theorem isFinite_of_between (number : x.isNaN = false) (hp : value? low = some p)
    (hq : value? high = some q) (above : ¬ x < low) (below : ¬ x > high) : ∃ v, value? x = some v := by
  change x.toModel.unpack.isNaN = false at number
  change ¬ Float.lt x low = true at above
  change ¬ Float.lt high x = true at below
  rw [Float.lt, decide_eq_true_iff] at above below
  change ¬ (x.toModel.unpack.compare low.toModel.unpack == some .lt) = true at above
  change ¬ (high.toModel.unpack.compare x.toModel.unpack == some .lt) = true at below
  rw [value?]
  cases hx : x.toModel.unpack with
  | notANumber => simp [hx, UnpackedFloat.isNaN] at number
  | infinity s =>
    cases s with
    | negative => simp [hx, (compare_infinity hp).1] at above
    | positive => simp [hx, (compare_infinity hq).2] at below
  | zero | finite => exact ⟨_, rfl⟩

/-- A number is brought between two finite doubles. -/
theorem value?_clamp (number : x.isNaN = false) (hp : value? low = some p) (hq : value? high = some q)
    (order : p ≤ q) : ∃ v, value? (clamp x low high) = some v ∧ p ≤ v ∧ v ≤ q := by
  have inside {y : Float} (number : y.isNaN = false) (above : ¬ y < low) (below : ¬ y > high) :
      ∃ v, value? y = some v ∧ p ≤ v ∧ v ≤ q := by
    obtain ⟨v, value⟩ := isFinite_of_between number hp hq above below
    refine ⟨v, value, ?_, ?_⟩
    · exact not_lt.1 fun less => above ((lt_iff value hp).2 less)
    · exact not_lt.1 fun less => below ((lt_iff hq value).2 less)
  have raised : ¬ low < low := fun less => (lt_irrefl p) ((lt_iff hp hp).1 less)
  simp only [clamp]
  split_ifs with first second second
  · exact ⟨q, hq, order, le_rfl⟩
  · exact inside (isNaN_of_value? hp) raised second
  · exact ⟨q, hq, order, le_rfl⟩
  · exact inside number first second

/-- What is between two finite doubles stays as it is. -/
theorem clamp_of_between (hv : value? x = some v) (hp : value? low = some p) (hq : value? high = some q)
    (above : p ≤ v) (below : v ≤ q) : clamp x low high = x := by
  have notLow : ¬ x < low := fun less => above.not_gt ((lt_iff hv hp).1 less)
  have notHigh : ¬ x > high := fun more => below.not_gt ((lt_iff hq hv).1 more)
  simp only [clamp, if_neg notLow, if_neg notHigh]

end Clamp

end DesignTokens.Binary64
