import DesignTokens.Proofs.Decimal.Numeral

/-!
# One spelling for each number

The text of a double with a fixed count of places denotes a decimal, the double rounded to these places.
Trimming that text leaves the decimal as it is and takes off what is not needed to write it: zeros at the
end of the fraction, the point if nothing is behind it then, and the sign of zero. What is left is
written for no other decimal, so two doubles have the same text exactly if they round to the same one.
-/

namespace DesignTokens.Decimal

open Text Binary64

section Denotation

/-- The number that a numeral stands for, before it is rounded to a double. -/
def Numeral.value (n : Numeral) : ℚ :=
  (if n.negative then -1 else 1) *
    (digitsValue (n.whole ++ n.fraction) * 10 ^ (n.exponent - n.fraction.length))

/-- A whole text is a numeral that stands for a number. -/
def Denotes (s : List Char) (q : ℚ) : Prop := ∃ n, NumeralText isDigit n s ∧ n.value = q

/-- A text denotes one number at most. -/
theorem Denotes.unique {s : List Char} {p q : ℚ} (hp : Denotes s p) (hq : Denotes s q) : p = q := by
  obtain ⟨n, first, rfl⟩ := hp
  obtain ⟨m, second, rfl⟩ := hq
  have same := (scan_eq_some_nil_iff.2 first).symm.trans (scan_eq_some_nil_iff.2 second)
  obtain ⟨rfl, -⟩ := Prod.mk.inj (Option.some.inj same)
  rfl

end Denotation

section Forms

variable {n : ℕ}

/-- A text with a fixed count of places: a sign or none, digits without zeros in front, and a point and
the places behind it unless there are none. -/
def IsFixed (places : ℕ) (s : List Char) : Prop :=
  ∃ negative whole last, s = spelled negative whole last ∧ whole.all isDigit = true ∧ whole ≠ [] ∧
    (whole.head? = some '0' → whole = ['0']) ∧ last.all isDigit = true ∧ last.length = places

/-- A text of a decimal with nothing in it that could be left out. -/
structure IsTrimmed (s : List Char) : Prop where
  point : s.getLast? ≠ some '.'
  zeros : '.' ∈ s → s.getLast? ≠ some '0'
  sign : s ≠ ['-', '0']

/-- Only zero has a zero in front of its digits. -/
theorem eq_zero_of_leading (h : (digits n).head? = some '0') : n = 0 := by
  induction n using Nat.strongRecOn with
  | ind n ih =>
    rcases Nat.lt_or_ge n 10 with small | large
    · rw [digits, Nat.toDigits_of_lt_base small] at h
      interval_cases n <;> simp_all
    · have split : digits n = digits (n / 10) ++ [(n % 10).digitChar] :=
        Nat.toDigits_of_base_le (by norm_num) large
      rw [split, List.head?_append_of_ne_nil _ (digits_ne_nil _)] at h
      have := ih (n / 10) (by omega) h
      omega

/-- The fraction of a trimmed number does not end with a zero. -/
theorem getLast?_fraction (places n : ℕ) : (fraction places n).getLast? ≠ some '0' := by
  rw [fraction, dropTrailing, List.getLast?_reverse]
  intro h
  have := List.head?_dropWhile_not (· == '0') (lastDigits places n).reverse
  rw [h] at this
  simp at this

end Forms

section Texts

variable {x y : Float} {negative : Bool} {m places : ℕ} {e : ℤ} {q r : ℚ}

/-- Units of `10 ^ -places` with a sign. -/
def decimal (negative : Bool) (places n : ℕ) : ℚ := (if negative then -1 else 1) * (n / 10 ^ places)

theorem denotes_spelled (negative : Bool) {whole fraction : List Char} (hw : whole.all isDigit = true)
    (some : whole ≠ []) (hf : fraction.all isDigit = true) :
    Denotes (spelled negative whole fraction) ((if negative then -1 else 1) *
      (digitsValue (whole ++ fraction) * 10 ^ (-fraction.length : ℤ))) :=
  ⟨_, numeralText_spelled negative hw some hf, by rw [Numeral.value, zero_sub]⟩

theorem denotes_fraction (negative : Bool) (places n : ℕ) :
    Denotes (spelled negative (digits (n / 10 ^ places)) (fraction places n))
      (decimal negative places n) := by
  have denoted := denotes_spelled negative (all_digits (n / 10 ^ places)) (digits_ne_nil _)
    (all_fraction places n)
  rwa [digitsValue_scaled] at denoted

theorem denotes_lastDigits (negative : Bool) (places n : ℕ) :
    Denotes (spelled negative (digits (n / 10 ^ places)) (lastDigits places n))
      (decimal negative places n) := by
  have denoted := denotes_spelled negative (all_digits (n / 10 ^ places)) (digits_ne_nil _)
    (all_lastDigits places n)
  have value : digitsValue (digits (n / 10 ^ places) ++ lastDigits places n) = n := by
    rw [digitsValue_append, digitsValue_digits, digitsValue_lastDigits, length_lastDigits,
      Nat.div_add_mod']
  rwa [value, length_lastDigits, zpow_neg, zpow_natCast, ← div_eq_mul_inv] at denoted

/-- A finite double is written with the digits of the nearest number of units, and all its places. -/
theorem fixedText_eq (h : view x = .finite negative m e) (places : ℕ) :
    fixedText places x = spelled negative (digits (fixedDigits m e places / 10 ^ places))
      (lastDigits places (fixedDigits m e places)) := by
  have none : lastDigits places (fixedDigits m e places) = [] ↔ places = 0 := by
    rw [← List.length_eq_zero_iff, length_lastDigits]
  have fixed : fixedText places x =
      (if negative then ['-'] else []) ++ pointed places (fixedDigits m e places) := by
    rw [fixedText, h]
    cases negative <;> rfl
  rw [fixed, pointed_eq, spelled, List.append_assoc]
  simp only [none]

theorem isFixed_fixedText (h : view x = .finite negative m e) (places : ℕ) :
    IsFixed places (fixedText places x) := by
  refine ⟨_, _, _, fixedText_eq h places, all_digits _, digits_ne_nil _, fun zero => ?_,
    all_lastDigits _ _, length_lastDigits _ _⟩
  rw [eq_zero_of_leading zero]
  rfl

/-- A number ends with its fraction, or with its last digit if it has none. -/
theorem getLast?_spelled (negative : Bool) {whole : List Char} (some : whole ≠ [])
    (fraction : List Char) : (spelled negative whole fraction).getLast? =
      if fraction = [] then whole.getLast? else fraction.getLast? := by
  rw [spelled]
  by_cases none : fraction = []
  · rw [if_pos none, if_pos none, List.append_nil, List.getLast?_append_of_ne_nil _ some]
  · rw [if_neg none, if_neg none, List.getLast?_append_of_ne_nil _ (List.cons_ne_nil _ _),
      List.getLast?_cons_of_ne_nil none]

theorem isTrimmed_trimmedText (h : view x = .finite negative m e) (places : ℕ) :
    IsTrimmed (trimmedText places x) := by
  rw [trimmedText_eq h]
  generalize fixedDigits m e places = n
  have ends :=
    getLast?_spelled (negative && n != 0) (digits_ne_nil (n / 10 ^ places)) (fraction places n)
  have whole : '.' ∉ digits (n / 10 ^ places) := point_notMem (all_digits _)
  have places' : '.' ∉ fraction places n := point_notMem (all_fraction _ _)
  constructor
  · rw [ends]
    intro last
    split at last
    · exact whole (List.mem_of_getLast? last)
    · exact places' (List.mem_of_getLast? last)
  · intro point
    rw [ends, if_neg]
    · exact getLast?_fraction places n
    · intro none
      rw [none, spelled, if_pos rfl, List.append_nil] at point
      rcases List.mem_append.1 point with sign | digit
      · split at sign <;> simp at sign
      · exact whole digit
  · intro minus
    obtain ⟨sign, zero⟩ := eq_zero_of_spelled_eq minus
    simp [zero] at sign

theorem decimal_sign (negative : Bool) (places n : ℕ) :
    decimal (negative && n != 0) places n = decimal negative places n := by
  by_cases zero : n = 0
  · simp [zero, decimal]
  · have some : (n != 0) = true := by simpa using zero
    rw [some, Bool.and_true]

/-- Equal decimals have the same units, and the same sign if they are not zero. -/
theorem decimal_inj {negative' : Bool} {n k : ℕ}
    (h : decimal negative places n = decimal negative' places k) :
    n = k ∧ (n ≠ 0 → negative = negative') := by
  have unit : (10 : ℚ) ^ places ≠ 0 := by positivity
  rw [decimal, decimal, ← mul_div_assoc, ← mul_div_assoc, div_left_inj' unit] at h
  have same : (if negative then -1 else 1) * (n : ℤ) = (if negative' then -1 else 1) * k := by
    exact_mod_cast h
  cases negative <;> cases negative' <;> grind

theorem denotes_trimmedText (h : view x = .finite negative m e) (places : ℕ) :
    Denotes (trimmedText places x) (decimal negative places (fixedDigits m e places)) := by
  rw [trimmedText_eq h, ← decimal_sign]
  exact denotes_fraction _ _ _

theorem denotes_fixedText (h : view x = .finite negative m e) (places : ℕ) :
    Denotes (fixedText places x) (decimal negative places (fixedDigits m e places)) := by
  rw [fixedText_eq h]
  exact denotes_lastDigits _ _ _

/-- A decimal that a double is written with is the nearest one to it. -/
theorem decimal_near (h : view x = .finite negative m e) (places : ℕ) {v : ℚ} (hv : value? x = some v) :
    |decimal negative places (fixedDigits m e places) - v| ≤ 1 / 2 / 10 ^ places := by
  have unit : (0 : ℚ) < 10 ^ places := by positivity
  have near := fixedDigits_near m e places
  have value := Option.some.inj (hv.symm.trans (value?_of_view h))
  have scaled : |decimal negative places (fixedDigits m e places) - v| =
      |(fixedDigits m e places : ℚ) - m * 2 ^ e * 10 ^ places| / 10 ^ places := by
    rw [← abs_of_pos unit, ← abs_div, abs_of_pos unit, sub_div, mul_div_cancel_right₀ _ unit.ne', value,
      decimal]
    cases negative with
    | false => simp
    | true =>
      rw [if_pos rfl, if_pos rfl, neg_one_mul, sub_neg_eq_add, ← abs_neg]
      ring_nf
  rw [scaled]
  gcongr

/-- Two doubles are written the same exactly if they come to the same decimal. -/
theorem trimmedText_inj {negative' : Bool} {k : ℕ} {f : ℤ} (hx : view x = .finite negative m e)
    (hy : view y = .finite negative' k f) (places : ℕ) :
    trimmedText places x = trimmedText places y ↔
      decimal negative places (fixedDigits m e places) =
        decimal negative' places (fixedDigits k f places) := by
  constructor
  · intro same
    have first := denotes_trimmedText hx places
    rw [same] at first
    exact first.unique (denotes_trimmedText hy places)
  · intro same
    obtain ⟨units, sign⟩ := decimal_inj same
    rw [trimmedText_eq hx, trimmedText_eq hy, ← units]
    by_cases zero : fixedDigits m e places = 0
    · simp [zero]
    · rw [sign zero]

/-- What a double is written as is scanned as one numeral, whatever follows that does not go on with it. -/
theorem exists_scan_trimmedText (finite : x.isFinite = true) (places : ℕ) :
    ∃ n : Numeral, n.toFloat.isFinite = true ∧
      ∀ rest, Follows rest → Numeral.scan (trimmedText places x ++ rest) = some (n, rest) := by
  obtain ⟨n, scanned, -, q, -, -, value, -⟩ := roundedTo_trimmedText finite places follows_nil
  rw [List.append_nil, scan_eq_some_nil_iff] at scanned
  exact ⟨n, isFinite_iff.2 ⟨q, value⟩, fun rest hr => scan_append scanned hr⟩

end Texts

end DesignTokens.Decimal
