import Mathlib
import DesignTokens.Decimal.Fixed
import DesignTokens.Decimal.Numeral
import DesignTokens.Proofs.Binary64.Value

/-!
# How numbers are written

A double is written as a natural number of units `10 ^ -places`, the nearest to its magnitude. The digits
before the point have no zeros in front, and those behind it no zeros at the end.
-/

namespace DesignTokens.Decimal

open Text

section Digits

variable {s t : List Char} {n p : ℕ}

theorem digitsValue_eq (s : List Char) : digitsValue s = Nat.ofDigitChars 10 s 0 := by
  rw [Nat.ofDigitChars_eq_foldl]
  rfl

theorem digitsValue_append (s t : List Char) :
    digitsValue (s ++ t) = digitsValue s * 10 ^ t.length + digitsValue t := by
  simp only [digitsValue_eq, Nat.ofDigitChars_append]
  rw [Nat.ofDigitChars_eq_ofDigitChars_zero, Nat.mul_comm]

@[simp] theorem digitsValue_digits (n : ℕ) : digitsValue (digits n) = n := by
  rw [digitsValue_eq, digits, Nat.ofDigitChars_ten_toDigits]

@[simp] theorem digitsValue_zeros (k : ℕ) : digitsValue (List.replicate k '0') = 0 := by
  rw [digitsValue_eq, Nat.ofDigitChars_replicate_zero, Nat.mul_zero]

theorem digitsValue_digitChar (h : n < 10) : digitsValue [n.digitChar] = n := by
  rw [digitsValue_eq, Nat.ofDigitChars_cons_digitChar_of_lt_ten h, Nat.ofDigitChars_nil]
  omega

theorem all_digits (n : ℕ) : (digits n).all isDigit = true :=
  List.all_eq_true.2 fun _ hc => Nat.isDigit_of_mem_toDigits (by norm_num) (by norm_num) hc

theorem digits_ne_nil (n : ℕ) : digits n ≠ [] := Nat.toDigits_ne_nil

/-- The last digits of a natural number, as many as there are places. -/
def lastDigits : (places n : ℕ) → List Char
  | 0, _ => []
  | places + 1, n => lastDigits places (n / 10) ++ [(n % 10).digitChar]

@[simp] theorem length_lastDigits (p n : ℕ) : (lastDigits p n).length = p := by
  induction p generalizing n with
  | zero => rfl
  | succ p ih => simp [lastDigits, ih]

theorem all_lastDigits (p n : ℕ) : (lastDigits p n).all isDigit = true := by
  induction p generalizing n with
  | zero => rfl
  | succ p ih =>
    have last : n % 10 < 10 := Nat.mod_lt n (by norm_num)
    simp [lastDigits, ih, isDigit, Nat.isDigit_digitChar, last]

theorem digitsValue_lastDigits (p n : ℕ) : digitsValue (lastDigits p n) = n % 10 ^ p := by
  induction p generalizing n with
  | zero => simp [lastDigits, digitsValue, Nat.mod_one]
  | succ p ih =>
    rw [lastDigits, digitsValue_append, ih, digitsValue_digitChar (Nat.mod_lt n (by norm_num)),
      List.length_singleton, Nat.pow_one, Nat.pow_succ, Nat.mul_comm (10 ^ p), Nat.mod_mul]
    omega

theorem paddedDigits_succ (p n : ℕ) :
    paddedDigits (p + 2) n = paddedDigits (p + 1) (n / 10) ++ [(n % 10).digitChar] := by
  rcases Nat.lt_or_ge n 10 with small | large
  · have none : n / 10 = 0 := Nat.div_eq_of_lt small
    simp [paddedDigits, digits, none, Nat.toDigits_of_lt_base small, Nat.mod_eq_of_lt small,
      List.replicate_succ']
  · have split : digits n = digits (n / 10) ++ [(n % 10).digitChar] :=
      Nat.toDigits_of_base_le (by norm_num) large
    simp [paddedDigits, split]

/-- The digits of a natural number are those before its last ones, and the last ones. -/
theorem paddedDigits_eq (p n : ℕ) :
    paddedDigits (p + 1) n = digits (n / 10 ^ p) ++ lastDigits p n := by
  induction p generalizing n with
  | zero =>
    have some : 1 - (digits n).length = 0 := by
      have := List.length_pos_of_ne_nil (digits_ne_nil n)
      omega
    simp [paddedDigits, some, lastDigits]
  | succ p ih =>
    rw [paddedDigits_succ, ih, lastDigits, List.append_assoc, Nat.div_div_eq_div_mul, Nat.pow_succ,
      Nat.mul_comm]

/-- A number with places after the point is its whole part and its last digits. -/
theorem pointed_eq (p n : ℕ) :
    pointed p n = digits (n / 10 ^ p) ++ (if p = 0 then [] else '.' :: lastDigits p n) := by
  have whole : (paddedDigits (p + 1) n).length - p = (digits (n / 10 ^ p)).length := by
    simp [paddedDigits_eq]
  rw [pointed, whole, paddedDigits_eq]
  split
  · rename_i none
    simp [none, lastDigits]
  · simp

end Digits

section Trimming

variable {c d : Char} {s t : List Char}

@[simp] theorem dropTrailing_nil : dropTrailing c [] = [] := rfl

@[simp] theorem dropTrailing_concat :
    dropTrailing c (s ++ [d]) = if d = c then dropTrailing c s else s ++ [d] := by
  by_cases h : d = c <;> simp [dropTrailing, h]

theorem dropTrailing_of_notMem (h : c ∉ s) : dropTrailing c s = s := by
  rcases List.eq_nil_or_concat' s with rfl | ⟨s, d, rfl⟩
  · rfl
  · rw [dropTrailing_concat, if_neg]
    rintro rfl
    simp at h

/-- Only what stands behind another character can be dropped. -/
theorem dropTrailing_append (h : d ≠ c) : dropTrailing c (s ++ d :: t) = s ++ d :: dropTrailing c t := by
  induction t using List.reverseRecOn with
  | nil => rw [dropTrailing_concat, if_neg h]; rfl
  | append_singleton t a ih =>
    have split : s ++ d :: (t ++ [a]) = (s ++ d :: t) ++ [a] := by simp
    rw [split, dropTrailing_concat, dropTrailing_concat, ih]
    split <;> simp

/-- What is dropped is a run of the character. -/
theorem exists_eq_dropTrailing_append (c : Char) (s : List Char) :
    ∃ k, s = dropTrailing c s ++ List.replicate k c := by
  induction s using List.reverseRecOn with
  | nil => exact ⟨0, rfl⟩
  | append_singleton s a ih =>
    rw [dropTrailing_concat]
    split
    · rename_i same
      obtain ⟨k, hk⟩ := ih
      refine ⟨k + 1, ?_⟩
      conv_lhs => rw [hk, same]
      rw [List.replicate_succ', List.append_assoc]
    · exact ⟨0, by simp⟩

/-- The text of a number: its sign, the digits before the point, and the point and the digits behind it
unless there are none. -/
def spelled (negative : Bool) (whole fraction : List Char) : List Char :=
  (if negative then ['-'] else []) ++ whole ++ (if fraction = [] then [] else '.' :: fraction)

theorem point_notMem {s : List Char} (h : s.all isDigit = true) : '.' ∉ s := fun hm => by
  have := List.all_eq_true.1 h _ hm
  simp [isDigit] at this

theorem trimFraction_of_notMem (h : '.' ∉ s) : trimFraction s = s := by
  rw [trimFraction, if_neg (by simpa using h)]

theorem trimFraction_append {whole fraction : List Char} (hw : '.' ∉ whole) (hf : '.' ∉ fraction) :
    trimFraction (whole ++ '.' :: fraction) = whole ++
      (if dropTrailing '0' fraction = [] then [] else '.' :: dropTrailing '0' fraction) := by
  have point : '.' ≠ '0' := by decide
  rw [trimFraction, if_pos (by simp), dropTrailing_append point]
  split
  · rename_i none
    rw [none, dropTrailing_concat, if_pos rfl, dropTrailing_of_notMem hw, List.append_nil]
  · rename_i some
    obtain ⟨rest, last, split⟩ := (List.eq_nil_or_concat' _).resolve_left some
    have : '.' ∉ dropTrailing '0' fraction := by
      obtain ⟨k, hk⟩ := exists_eq_dropTrailing_append '0' fraction
      exact fun hm => hf (hk ▸ List.mem_append_left _ hm)
    rw [split] at this ⊢
    have regroup : whole ++ '.' :: (rest ++ [last]) = (whole ++ '.' :: rest) ++ [last] := by simp
    rw [regroup, dropTrailing_concat, if_neg]
    rintro rfl
    simp at this

end Trimming

section Text

variable {x : Float} {negative : Bool} {m : ℕ} {e : ℤ} {p n : ℕ}

/-- The digits behind the point of a number of units `10 ^ -places`. -/
def fraction (places n : ℕ) : List Char := dropTrailing '0' (lastDigits places n)

theorem exists_lastDigits_eq (p n : ℕ) : ∃ k, lastDigits p n = fraction p n ++ List.replicate k '0' :=
  exists_eq_dropTrailing_append _ _

theorem all_fraction (p n : ℕ) : (fraction p n).all isDigit = true := by
  obtain ⟨k, hk⟩ := exists_lastDigits_eq p n
  have := all_lastDigits p n
  rw [hk, List.all_append, Bool.and_eq_true] at this
  exact this.1

theorem length_fraction_le (p n : ℕ) : (fraction p n).length ≤ p := by
  obtain ⟨k, hk⟩ := exists_lastDigits_eq p n
  have := congrArg List.length hk
  simp at this
  omega

/-- The digits before and after the point have the value of the number. -/
theorem digitsValue_spelled (p n : ℕ) :
    digitsValue (digits (n / 10 ^ p) ++ fraction p n) * 10 ^ (p - (fraction p n).length) = n := by
  obtain ⟨k, hk⟩ := exists_lastDigits_eq p n
  have length := congrArg List.length hk
  have value := congrArg digitsValue hk
  rw [digitsValue_lastDigits, digitsValue_append, digitsValue_zeros, List.length_replicate] at value
  rw [length_lastDigits, List.length_append, List.length_replicate] at length
  have places : p - (fraction p n).length = k := by omega
  calc digitsValue (digits (n / 10 ^ p) ++ fraction p n) * 10 ^ (p - (fraction p n).length)
      = n / 10 ^ p * (10 ^ (fraction p n).length * 10 ^ k) + digitsValue (fraction p n) * 10 ^ k := by
        rw [digitsValue_append, digitsValue_digits, places]
        ring
    _ = n / 10 ^ p * 10 ^ p + n % 10 ^ p := by rw [← Nat.pow_add, ← length, value, Nat.add_zero]
    _ = n := Nat.div_add_mod' n (10 ^ p)

theorem trimFraction_pointed (negative : Bool) (p n : ℕ) :
    trimFraction ((if negative then ['-'] else []) ++ pointed p n) =
      spelled negative (digits (n / 10 ^ p)) (fraction p n) := by
  have sign : '.' ∉ (if negative then ['-'] else []) ++ digits (n / 10 ^ p) := by
    have := point_notMem (all_digits (n / 10 ^ p))
    cases negative <;> simpa
  rw [pointed_eq, spelled, ← List.append_assoc]
  by_cases none : p = 0
  · rw [if_pos none, List.append_nil, trimFraction_of_notMem sign]
    simp [fraction, none, lastDigits]
  · rw [if_neg none, trimFraction_append sign (point_notMem (all_lastDigits p n))]
    rfl

theorem lastDigits_zero (p : ℕ) : lastDigits p 0 = List.replicate p '0' := by
  induction p with
  | zero => rfl
  | succ p ih => rw [lastDigits, Nat.zero_div, ih, List.replicate_succ']; rfl

theorem spelled_zero (negative : Bool) (p : ℕ) :
    spelled negative (digits (0 / 10 ^ p)) (fraction p 0) = (if negative then ['-'] else []) ++ ['0'] := by
  have none : fraction p 0 = [] := by
    rw [fraction, lastDigits_zero, dropTrailing, List.reverse_replicate]
    simp
  rw [Nat.zero_div, none, spelled, if_pos rfl, List.append_nil]
  rfl

theorem spelled_ne_nil (negative : Bool) (p n : ℕ) :
    spelled negative (digits (n / 10 ^ p)) (fraction p n) ≠ [] := by
  simp [spelled, digits_ne_nil]

/-- Only zero is written as it is, so that just its sign is taken off. -/
theorem eq_zero_of_spelled_eq (h : spelled negative (digits (n / 10 ^ p)) (fraction p n) = ['-', '0']) :
    negative = true ∧ n = 0 := by
  obtain ⟨c, whole, split⟩ := List.exists_cons_of_ne_nil (digits_ne_nil (n / 10 ^ p))
  rw [split] at h
  cases negative with
  | false =>
    have : isDigit c = true := List.all_eq_true.1 (all_digits (n / 10 ^ p)) c (by simp [split])
    obtain rfl : c = '-' := by simpa [spelled] using congrArg List.head? h
    cases this
  | true =>
    have value := digitsValue_spelled p n
    have none : c = '0' ∧ whole = [] ∧ fraction p n = [] := by
      simp only [spelled, if_true, List.cons_append, List.nil_append, List.cons.injEq,
        true_and, List.append_eq_nil_iff] at h
      exact ⟨h.1, h.2.1, by simpa using h.2.2⟩
    obtain ⟨rfl, rfl, none⟩ := none
    rw [split, none] at value
    exact ⟨rfl, by rw [← value]; simp [digitsValue]⟩

/-- A finite double is written with the digits of the nearest number of units. -/
theorem trimmedText_eq (h : Binary64.view x = .finite negative m e) (p : ℕ) :
    trimmedText p x = spelled (negative && fixedDigits m e p != 0) (digits (fixedDigits m e p / 10 ^ p))
      (fraction p (fixedDigits m e p)) := by
  have fixed : fixedText p x = (if negative then ['-'] else []) ++ pointed p (fixedDigits m e p) := by
    rw [fixedText, h]
    cases negative <;> rfl
  rw [trimmedText, fixed, trimFraction_pointed]
  generalize fixedDigits m e p = n
  split
  · rename_i zero
    obtain ⟨rfl, rfl⟩ := eq_zero_of_spelled_eq zero
    exact (spelled_zero false p).symm
  · rename_i none
    exact absurd none (spelled_ne_nil _ _ _)
  · rename_i other _
    cases negative with
    | false => rfl
    | true =>
      by_cases zero : n = 0
      · exact absurd (by rw [zero, spelled_zero]; rfl) other
      · have : (n != 0) = true := by simpa using zero
        rw [this]
        rfl

end Text

section Nearest

variable {n d : ℕ}

theorem roundDiv_near (n : ℕ) (hd : 0 < d) : |(roundDiv n d : ℚ) - n / d| ≤ 1 / 2 := by
  have positive : (0 : ℚ) < d := by exact_mod_cast hd
  have parts : (n : ℚ) = d * (n / d : ℕ) + (n % d : ℕ) := by exact_mod_cast (Nat.div_add_mod n d).symm
  have scaled : |(roundDiv n d : ℚ) - n / d| = |(roundDiv n d : ℚ) * d - n| / d := by
    rw [← abs_of_pos positive, ← abs_div, abs_of_pos positive, sub_div, mul_div_cancel_right₀ _ positive.ne']
  rw [scaled, div_le_iff₀ positive, abs_le]
  have last : ((n / d % 2 : ℕ) : ℚ) ≤ 1 := by exact_mod_cast Nat.lt_succ_iff.1 (Nat.mod_lt _ two_pos)
  have first : (0 : ℚ) ≤ (n / d % 2 : ℕ) := by positivity
  rw [roundDiv]
  split_ifs with below above
  · have below : 2 * ((n % d : ℕ) : ℚ) < d := by exact_mod_cast below
    have : (0 : ℚ) ≤ (n % d : ℕ) := by positivity
    constructor <;> nlinarith
  · have above : (d : ℚ) < 2 * (n % d : ℕ) := by exact_mod_cast above
    have : ((n % d : ℕ) : ℚ) < d := by exact_mod_cast Nat.mod_lt n hd
    push_cast
    constructor <;> nlinarith
  · have half : 2 * ((n % d : ℕ) : ℚ) = d := by exact_mod_cast (by omega : 2 * (n % d) = d)
    push_cast
    constructor <;> nlinarith

/-- The units that a magnitude is written with are the nearest whole number of them. -/
theorem fixedDigits_near (m : ℕ) (e : ℤ) (p : ℕ) :
    |(fixedDigits m e p : ℚ) - m * 2 ^ e * 10 ^ p| ≤ 1 / 2 := by
  have near := roundDiv_near (m * 10 ^ p * 2 ^ e.toNat) (Nat.pow_pos two_pos : 0 < 2 ^ (-e).toNat)
  have whole : ((m * 10 ^ p * 2 ^ e.toNat : ℕ) : ℚ) / (2 ^ (-e).toNat : ℕ) = m * 2 ^ e * 10 ^ p := by
    have : (2 : ℚ) ^ e = 2 ^ e.toNat / 2 ^ (-e).toNat := by
      rw [← zpow_natCast, ← zpow_natCast, ← zpow_sub₀ (by norm_num)]
      congr 1
      omega
    rw [this]
    push_cast
    ring
  rw [whole] at near
  exact near

variable {x : Float} {p : ℕ} {v : ℚ}

/-- A double that is not negative is written with the digits of the nearest number of units. -/
theorem trimmedText_of_nonneg (hv : Binary64.value? x = some v) (nonneg : 0 ≤ v) (p : ℕ) :
    ∃ n : ℕ, trimmedText p x = spelled false (digits (n / 10 ^ p)) (fraction p n) ∧
      |(n : ℚ) - v * 10 ^ p| ≤ 1 / 2 := by
  obtain ⟨negative, m, e, viewed, -⟩ := Binary64.exists_view_of_value? hv
  have value := Option.some.inj (hv.symm.trans (Binary64.value?_of_view viewed))
  have magnitude : (0 : ℚ) ≤ m * 2 ^ e := by positivity
  have near := fixedDigits_near m e p
  cases negative with
  | false =>
    obtain rfl : v = m * 2 ^ e := value
    exact ⟨fixedDigits m e p, trimmedText_eq viewed p, near⟩
  | true =>
    -- only the negative zero is not below zero
    have none : (m : ℚ) * 2 ^ e = 0 := by
      rw [if_pos rfl] at value
      linarith
    rw [none, zero_mul] at near
    have zero : fixedDigits m e p = 0 := by
      have : (fixedDigits m e p : ℚ) < 1 := by linarith [(abs_le.1 near).2]
      exact Nat.lt_one_iff.1 (by exact_mod_cast this)
    refine ⟨0, by rw [trimmedText_eq viewed, zero]; rfl, ?_⟩
    rw [value, if_pos rfl, none]
    norm_num

/-- So the number of units that is less than half a unit away is the one that is written. -/
theorem trimmedText_of_near {n : ℕ} (hv : Binary64.value? x = some v) (nonneg : 0 ≤ v)
    (near : |v * 10 ^ p - n| < 1 / 2) :
    trimmedText p x = spelled false (digits (n / 10 ^ p)) (fraction p n) := by
  obtain ⟨k, text, nearest⟩ := trimmedText_of_nonneg hv nonneg p
  have distance : |(k : ℚ) - n| < 1 := by
    calc |(k : ℚ) - n| ≤ |k - v * 10 ^ p| + |v * 10 ^ p - n| := abs_sub_le _ _ _
      _ < 1 / 2 + 1 / 2 := by linarith
      _ = 1 := by norm_num
  have same : k = n := by
    have : |(k : ℤ) - n| < 1 := by exact_mod_cast distance
    have := Int.abs_lt_one_iff.1 this
    omega
  rw [text, same]

end Nearest

end DesignTokens.Decimal
