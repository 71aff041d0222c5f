import DesignTokens.Proofs.Color.Notation
import DesignTokens.Proofs.Decimal.Numeral
import DesignTokens.Proofs.Text.Pieces

/-!
# Reading the functional notation back

The functional text of a color has its three bytes and its opacity in thousandths. It reads back as a
color with the same bytes, and with an opacity that is less than half a thousandth away, so this color is
written with the same text again. A channel that is in range is not moved when it is brought into range.
-/

namespace DesignTokens

open Text Binary64 Decimal

namespace Rgba

section Range

variable {x : Float} {v : ℚ}

/-- Whatever a channel is, it is a number from 0 to 1 when it is brought into range. -/
theorem value?_clampChannel (x : Float) : ∃ v, value? (clampChannel x) = some v ∧ 0 ≤ v ∧ v ≤ 1 := by
  rw [clampChannel]
  split
  · exact ⟨0, value?_zero, le_rfl, zero_le_one⟩
  · rename_i number
    exact value?_clamp (eq_false_of_ne_true number) value?_zero value?_one zero_le_one

theorem clampChannel_of_value? (hv : value? x = some v) (above : 0 ≤ v) (below : v ≤ 1) :
    clampChannel x = x := by
  rw [clampChannel, if_neg (ne_true_of_eq_false (isNaN_of_value? hv))]
  exact clamp_of_between hv value?_zero value?_one above below

@[simp] theorem clampChannel_clampChannel (x : Float) :
    clampChannel (clampChannel x) = clampChannel x := by
  obtain ⟨v, hv, above, below⟩ := value?_clampChannel x
  exact clampChannel_of_value? hv above below

@[simp] theorem clamped_clamped (c : Rgba) : c.clamped.clamped = c.clamped := by
  simp [clamped]

@[simp] theorem bytes_clamped (c : Rgba) : c.clamped.bytes = c.bytes := by
  simp only [bytes, clamped_clamped]

end Range

section Numeric

variable {s : List Char} {c : Char}

/-- A text has nothing but digits and points in it. -/
def Numeric (s : List Char) : Prop := ∀ c ∈ s, isDigit c = true ∨ c = '.'

theorem numeric_digits (n : ℕ) : Numeric (digits n) := fun c hc =>
  .inl (List.all_eq_true.1 (all_digits n) c hc)

namespace Numeric

theorem notMem (h : Numeric s) (digit : isDigit c = false) (point : c ≠ '.') : c ∉ s := fun hc => by
  rcases h c hc with isDigit | same
  · rw [digit] at isDigit
    cases isDigit
  · exact point same

theorem all_isPlain (h : Numeric s) : s.all isPlain = true := List.all_eq_true.2 fun c hc => by
  rcases h c hc with digit | rfl
  · exact isPlain_of_isDigit digit
  · decide

theorem map_toLower (h : Numeric s) : s.map Char.toLower = s := by
  have same : ∀ c ∈ s, c.toLower = id c := by
    intro c hc
    rcases h c hc with digit | rfl
    · exact toLower_of_isDigit digit
    · decide
  rw [List.map_congr_left same, List.map_id]

theorem beforeLast?_percent (h : Numeric s) : beforeLast? '%' s = none :=
  beforeLast?_eq_none_iff.2 fun last => h.notMem rfl (by decide) (List.mem_of_getLast? last)

end Numeric

end Numeric

section Opacity

/-- The text of some thousandths. -/
def thousandths (n : ℕ) : List Char := spelled false (digits (n / 10 ^ 3)) (fraction 3 n)

/-- The text of an opacity: a decimal from 0 to 1 with at most three places. -/
def IsOpacity (s : List Char) : Prop :=
  s = ['0'] ∨ s = ['1'] ∨
    ∃ places, s = '0' :: '.' :: places ∧ 1 ≤ places.length ∧ places.length ≤ 3 ∧
      places.all isDigit = true

/-- An opacity is written in thousandths. -/
theorem exists_thousandths (x : Float) :
    ∃ n ≤ 1000, trimmedText 3 (clampChannel x) = thousandths n := by
  obtain ⟨v, hv, above, below⟩ := value?_clampChannel x
  obtain ⟨n, text, near⟩ := trimmedText_of_nonneg hv above 3
  refine ⟨n, ?_, text⟩
  have : (n : ℚ) < 1001 := by linarith [(abs_le.1 near).2]
  exact Nat.lt_succ_iff.1 (by exact_mod_cast this)

variable {n : ℕ}

theorem isOpacity_thousandths (h : n ≤ 1000) : IsOpacity (thousandths n) := by
  rcases h.lt_or_eq with less | rfl
  · have whole : digits (n / 10 ^ 3) = ['0'] := by
      rw [Nat.div_eq_of_lt (by omega)]
      rfl
    rw [thousandths, spelled, whole]
    by_cases none : fraction 3 n = []
    · exact .inl (by rw [if_pos none]; rfl)
    · refine .inr (.inr ⟨fraction 3 n, by rw [if_neg none]; rfl, ?_, length_fraction_le 3 n,
        all_fraction 3 n⟩)
      exact List.length_pos_of_ne_nil none
  · exact .inr (.inl rfl)

theorem numeric_thousandths (n : ℕ) : Numeric (thousandths n) := by
  intro c hc
  simp only [thousandths, spelled, Bool.false_eq_true, if_false, List.nil_append, List.mem_append] at hc
  rcases hc with hc | hc
  · exact numeric_digits _ c hc
  · split at hc
    · cases hc
    · rcases List.mem_cons.1 hc with rfl | hc
      · exact .inr rfl
      · exact .inl (List.all_eq_true.1 (all_fraction 3 n) c hc)

/-- An opacity is read as a double that is written with the same text. -/
theorem exists_alpha?_thousandths (h : n ≤ 1000) : ∃ a v, Color.alpha? (some (thousandths n)) = some a ∧
    value? a = some v ∧ 0 ≤ v ∧ v ≤ 1 ∧ trimmedText 3 a = thousandths n := by
  rcases n.eq_zero_or_pos with rfl | positive
  · have zero : Color.alpha? (some (thousandths 0)) = some 0 ∧ trimmedText 3 0 = thousandths 0 := by
      decide +kernel
    exact ⟨0, 0, zero.1, value?_zero, le_rfl, zero_le_one, zero.2⟩
  · have natural : (1 : ℚ) ≤ n ∧ (n : ℚ) ≤ 1000 := by exact_mod_cast And.intro positive h
    have unit : (n : ℚ) / 10 ^ 3 ≤ 1 := by
      rw [div_le_one₀ (by norm_num)]
      linarith
    have range : (1 : ℚ) ≤ largest := le_trans (by norm_num) two_pow_le_largest
    obtain ⟨x, read, r, value⟩ := readFloat?_spelled (unit.trans range)
    have near := near_of_rounding r (by omega) (by norm_num)
    have above : 0 < r.value := by linarith [(abs_lt.1 near).1]
    have below : r.value ≤ 1 := by
      have fine : r.exponent ≤ 0 := r.exponent_le (by norm_num) (by norm_num; linarith)
      have := r.value_le (c := 1) fine (by simpa using unit)
      simpa using this
    have quotient := value?_div_one value above (below.trans range)
    refine ⟨x / 1, r.value, ?_, quotient, above.le, below, trimmedText_of_near quotient above.le near⟩
    rw [Color.alpha?, Color.fraction?, (numeric_thousandths n).beforeLast?_percent, thousandths, read]
    simp only [Option.map_some]
    rw [clamp_of_between quotient value?_zero value?_one above.le below]

end Opacity

section Bytes

variable {n : ℕ}

theorem fraction?_digits (n : ℕ) :
    Color.fraction? 255 (digits n) = some (Float.ofNat n / 255) := by
  rw [Color.fraction?, (numeric_digits n).beforeLast?_percent, readFloat?_digits n]
  rfl

end Bytes

section Functional

variable {red green blue : ℕ} {opacity : List Char}

/-- The text of three bytes and an opacity. -/
def functional (red green blue : ℕ) (opacity : List Char) : List Char :=
  ['r', 'g', 'b', 'a', '('] ++ (digits red ++ ',' :: ' ' :: (digits green ++ ',' :: ' ' :: (digits blue ++
    ',' :: ' ' :: opacity))) ++ [')']

theorem toFunctional_eq (c : Rgba) : c.toFunctional = "rgba(" ++ (toString c.bytes.1 ++ ", " ++
    toString c.bytes.2.1 ++ ", " ++ toString c.bytes.2.2 ++ ", " ++
      formatNumber (clampChannel c.alpha) 3) ++ ")" := rfl

theorem toList_toFunctional (c : Rgba) : c.toFunctional.toList =
    functional c.bytes.1 c.bytes.2.1 c.bytes.2.2 (trimmedText 3 (clampChannel c.alpha)) := by
  have numeral (n : ℕ) : (toString n).toList = digits n := String.toList_ofList
  simp only [toFunctional_eq, formatNumber, String.toList_append, String.toList_ofList, numeral]
  simp [functional]

theorem components?_functional (ho : Numeric opacity) :
    Color.components? (digits red ++ ',' :: ' ' :: (digits green ++ ',' :: ' ' :: (digits blue ++
      ',' :: ' ' :: opacity))) = some ⟨digits red, digits green, digits blue, some opacity⟩ := by
  have slash {s : List Char} (h : Numeric s) : '/' ∉ s := h.notMem rfl (by decide)
  have comma {s : List Char} (h : Numeric s) : ',' ∉ s := h.notMem rfl (by decide)
  have blank {s : List Char} (h : ',' ∉ s) : ',' ∉ ' ' :: s := by simpa using h
  have trimmed {s : List Char} (h : Numeric s) : trim (' ' :: s) = s := by
    rw [trim_cons_of_isBlank rfl, trim_of_plain h.all_isPlain]
  have number := numeric_digits
  rw [Color.components?, cut?_of_notMem (by simp [slash (number red), slash (number green),
    slash (number blue), slash ho])]
  have split : splitAt ',' (digits red ++ ',' :: ' ' :: (digits green ++ ',' :: ' ' :: (digits blue ++
      ',' :: ' ' :: opacity))) = [digits red, ' ' :: digits green, ' ' :: digits blue, ' ' :: opacity] := by
    rw [splitAt_append (comma (number red)), ← List.cons_append,
      splitAt_append (blank (comma (number green))), ← List.cons_append,
      splitAt_append (blank (comma (number blue))), splitAt_of_notMem (blank (comma ho))]
  simp only [List.contains_append, List.contains_cons]
  simp [split, trimmed (number green), trimmed (number blue), trimmed ho,
    trim_of_plain (number red).all_isPlain]

theorem map_toLower_functional (ho : Numeric opacity) :
    (functional red green blue opacity).map Char.toLower = functional red green blue opacity := by
  have number (n : ℕ) := (numeric_digits n).map_toLower
  have name : ['r', 'g', 'b', 'a', '('].map Char.toLower = ['r', 'g', 'b', 'a', '('] := by decide
  have others : ','.toLower = ',' ∧ ' '.toLower = ' ' ∧ ')'.toLower = ')' := by decide
  rw [functional, List.map_append, List.map_append, name]
  simp only [List.map_append, List.map_cons, List.map_nil, number, ho.map_toLower, others]

theorem body?_functional : Color.body? ["rgb", "rgba"] (functional red green blue opacity) =
    some (digits red ++ ',' :: ' ' :: (digits green ++ ',' :: ' ' :: (digits blue ++
      ',' :: ' ' :: opacity))) := by
  generalize hbody : digits red ++ ',' :: ' ' :: (digits green ++ ',' :: ' ' :: (digits blue ++
      ',' :: ' ' :: opacity)) = body
  have last : beforeLast? ')' (body ++ [')']) = some body := beforeLast?_eq_some_iff.2 rfl
  rw [functional, hbody]
  simp [Color.body?, List.findSome?, afterStart?, trimStart, isBlank, last]

/-- The functional notation is read as a color of the bytes with the opacity. -/
theorem read?_functional {a : Float} (ho : Numeric opacity) (ha : Color.alpha? (some opacity) = some a) :
    Color.read? (functional red green blue opacity) =
      some (clamped { ofBytes red green blue with alpha := a }) := by
  have name : (functional red green blue opacity).head? ≠ some '#' := by simp [functional]
  rw [Color.read?, if_neg name, body?_functional]
  simp only [components?_functional ho, Option.bind_eq_bind, Option.bind_some, Color.ofRgb?,
    fraction?_digits, ha]
  rfl

/-- The text is three bytes and an opacity in functional notation. -/
def IsFunctional (text : String) : Prop :=
  ∃ (red green blue : ℕ) (opacity : String), red ≤ 255 ∧ green ≤ 255 ∧ blue ≤ 255 ∧
    IsOpacity opacity.toList ∧ text = "rgba(" ++ (toString red ++ ", " ++ toString green ++ ", " ++
      toString blue ++ ", " ++ opacity) ++ ")"

theorem isFunctional_toFunctional (c : Rgba) : IsFunctional c.toFunctional := by
  have byte (x : Float) : byte x ≤ 255 := Nat.le_of_lt_succ (byte_lt x)
  obtain ⟨n, few, opacity⟩ := exists_thousandths c.alpha
  refine ⟨_, _, _, _, byte _, byte _, byte _, ?_, c.toFunctional_eq⟩
  rw [formatNumber, String.toList_ofList, opacity]
  exact isOpacity_thousandths few

/-- The functional text of a color reads back as a color that is written the same. -/
theorem parse?_toFunctional (c : Rgba) :
    ∃ d, Color.parse? c.toFunctional = some d ∧ d.toFunctional = c.toFunctional := by
  have hr : c.bytes.1 < 256 := byte_lt _
  have hg : c.bytes.2.1 < 256 := byte_lt _
  have hb : c.bytes.2.2 < 256 := byte_lt _
  obtain ⟨n, few, opacity⟩ := exists_thousandths c.alpha
  obtain ⟨a, v, ha, value, above, below, same⟩ := exists_alpha?_thousandths few
  have text := toList_toFunctional c
  rw [opacity] at text
  let d : Rgba := { ofBytes c.bytes.1 c.bytes.2.1 c.bytes.2.2 with alpha := a }
  have read : Color.read? c.toFunctional.toList = some d.clamped := by
    rw [text]
    exact read?_functional (numeric_thousandths n) ha
  have bytes : d.clamped.bytes = c.bytes := (bytes_clamped d).trans (bytes_ofBytes hr hg hb)
  have alpha : clampChannel d.clamped.alpha = a :=
    (clampChannel_clampChannel a).trans (clampChannel_of_value? value above below)
  refine ⟨d.clamped, ?_, ?_⟩
  · rw [Color.parse?, unquote_of_bare (Color.bare_of_read? read), text,
      map_toLower_functional (numeric_thousandths n), ← text, read]
  · rw [← String.toList_inj, toList_toFunctional, text, bytes, alpha, same]

end Functional

end Rgba

end DesignTokens
