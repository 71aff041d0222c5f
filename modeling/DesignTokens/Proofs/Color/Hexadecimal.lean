import DesignTokens.Proofs.Color.Notation
import DesignTokens.Proofs.Text.Plain

/-!
# The hexadecimal notation

A sharp and three, four, six or eight digits of base sixteen write a color, and no other text that is
read digit by digit does. Three or four digits stand for twice as many, each of them written twice. Two
digits are a channel in parts of 255, and a color without a fourth channel is not transparent.

Whatever digits a color was written with, it is written again as a sharp and the six digits of its red,
green and blue in lower case.
-/

namespace DesignTokens

open Text

/-- Digits that write a color behind a sharp. -/
structure ColorDigits (digits : List Char) : Prop where
  hex : ∀ d ∈ digits, isHexDigit d = true
  count : digits.length ∈ [3, 4, 6, 8]

namespace ColorDigits

variable {digits : List Char} {d : Char}

/-- Every digit twice. -/
def doubled (digits : List Char) : List Char := digits.flatMap fun d => [d, d]

/-- The digits of the channels, two for each of them. -/
def channels (digits : List Char) : List Char := if digits.length < 6 then doubled digits else digits

/-- The sharp and the digits of red, green and blue in lower case. -/
def canonical (digits : List Char) : String :=
  String.ofList ('#' :: ((channels digits).take 6).map Char.toLower)

theorem length_doubled (digits : List Char) : (doubled digits).length = 2 * digits.length := by
  induction digits with
  | nil => rfl
  | cons d digits ih =>
    rw [doubled, List.flatMap_cons, List.length_append, ← doubled, ih, List.length_cons]
    simp
    omega

theorem mem_doubled : d ∈ doubled digits ↔ d ∈ digits := by simp [doubled]

theorem map_doubled (f : Char → Char) (digits : List Char) :
    (doubled digits).map f = doubled (digits.map f) := by
  simp [doubled, List.map_flatMap, List.flatMap_map]

theorem map_channels (f : Char → Char) (digits : List Char) :
    (channels digits).map f = channels (digits.map f) := by
  rw [channels, channels, List.length_map]
  split
  · exact map_doubled f digits
  · rfl

/-- The digits are letters and digits of the first half of a byte, so there are few of them. -/
theorem toNat_lt_of_isHexDigit (h : isHexDigit d = true) : d.toNat < 103 := by
  simp only [isHexDigit, Char.isDigit, Char.le_def, UInt32.le_iff_toNat_le, Bool.or_eq_true,
    Bool.and_eq_true, decide_eq_true_eq] at h
  obtain (⟨-, high⟩ | ⟨-, high⟩) | ⟨-, high⟩ := h <;> exact Nat.lt_of_le_of_lt high (by decide)

/-- A digit in lower case is a digit, and the one that is written for its value. -/
theorem lower_hexDigit (h : isHexDigit d = true) :
    isHexDigit d.toLower = true ∧ (hexValue d).digitChar = d.toLower := by
  have table : ∀ n < 103, isHexDigit (Char.ofNat n) = true → isHexDigit (Char.ofNat n).toLower = true ∧
      (hexValue (Char.ofNat n)).digitChar = (Char.ofNat n).toLower := by decide
  have of_table := table d.toNat (toNat_lt_of_isHexDigit h)
  rw [Char.ofNat_toNat] at of_table
  exact of_table h

theorem mem_channels : d ∈ channels digits ↔ d ∈ digits := by
  rw [channels]
  split
  · exact mem_doubled
  · rfl

/-- The channels have six digits or eight, and these write them as well. -/
theorem length_channels (h : ColorDigits digits) :
    (channels digits).length = 6 ∨ (channels digits).length = 8 := by
  have count := h.count
  simp only [List.mem_cons, List.not_mem_nil, or_false] at count
  rw [channels]
  split
  · rw [length_doubled]
    omega
  · omega

theorem map_toLower (h : ColorDigits digits) : ColorDigits (digits.map Char.toLower) where
  hex d hd := by
    obtain ⟨d, mem, rfl⟩ := List.mem_map.1 hd
    exact (lower_hexDigit (h.hex d mem)).1
  count := by rw [List.length_map]; exact h.count

theorem canonical_map_toLower (digits : List Char) :
    canonical (digits.map Char.toLower) = canonical digits := by
  rw [canonical, canonical, ← map_channels, ← List.map_take, List.map_map]
  congr 2
  exact List.map_congr_left fun d _ => Text.toLower_toLower d

end ColorDigits

namespace Rgba

open ColorDigits

variable {s digits : List Char} {c : Rgba}

/-- Two digits are written for the byte that they write. -/
theorem hexPair_pairValue {high low : Char} (hh : isHexDigit high = true) (hl : isHexDigit low = true) :
    hexPair (pairValue high low) = [high.toLower, low.toLower] := by
  have := hexValue_lt low
  have parts : pairValue high low / 16 = hexValue high ∧ pairValue high low % 16 = hexValue low := by
    rw [pairValue]
    omega
  rw [hexPair, parts.1, parts.2, (lower_hexDigit hh).2, (lower_hexDigit hl).2]

theorem expandDigits_eq (count : digits.length ∈ [3, 4, 6, 8]) :
    expandDigits digits = some (channels digits) := by
  simp only [List.mem_cons, List.not_mem_nil, or_false] at count
  obtain count | count | count | count := count <;> simp [expandDigits, channels, doubled, count]

theorem expandDigits_eq_none (count : digits.length ∉ [3, 4, 6, 8]) : expandDigits digits = none := by
  simp only [List.mem_cons, List.not_mem_nil, or_false, not_or] at count
  simp [expandDigits, count]

section Channels

variable {r r' g g' b b' a a' : Char}

/-- A channel of two digits. -/
def channel (high low : Char) : Float := Float.ofNat (16 * hexValue high + hexValue low) / 255

theorem ofHex?_of_six (h : ColorDigits digits) (six : channels digits = [r, r', g, g', b, b']) :
    ofHex? ('#' :: digits) = some ⟨channel r r', channel g g', channel b b', 1⟩ := by
  rw [ofHex?, if_pos (List.all_eq_true.2 h.hex), expandDigits_eq h.count, six]
  rfl

theorem ofHex?_of_eight (h : ColorDigits digits)
    (eight : channels digits = [r, r', g, g', b, b', a, a']) :
    ofHex? ('#' :: digits) = some ⟨channel r r', channel g g', channel b b', channel a a'⟩ := by
  rw [ofHex?, if_pos (List.all_eq_true.2 h.hex), expandDigits_eq h.count, eight]
  rfl

/-- The opacity of a color is not written with its channels. -/
theorem toHex_channels (alpha : Float) (hex : ∀ d ∈ [r, r', g, g', b, b'], isHexDigit d = true) :
    (Rgba.mk (channel r r') (channel g g') (channel b b') alpha).toHex =
      String.ofList ('#' :: [r, r', g, g', b, b'].map Char.toLower) := by
  simp only [List.forall_mem_cons, List.not_mem_nil, false_imp_iff, implies_true, and_true] at hex
  obtain ⟨hr, hr', hg, hg', hb, hb'⟩ := hex
  have bytes : (Rgba.mk (channel r r') (channel g g') (channel b b') alpha).bytes =
      (pairValue r r', pairValue g g', pairValue b b') :=
    bytes_ofBytes (pairValue_lt r r') (pairValue_lt g g') (pairValue_lt b b')
  rw [toHex, bytes]
  simp only [hexPair_pairValue hr hr', hexPair_pairValue hg hg', hexPair_pairValue hb hb']
  rfl

end Channels

/-- Digits of a color are read as one that is written in their canonical form. -/
theorem exists_ofHex? (h : ColorDigits digits) :
    ∃ c, ofHex? ('#' :: digits) = some c ∧ c.toHex = canonical digits := by
  have hex : ∀ d ∈ channels digits, isHexDigit d = true := fun d hd => h.hex d (mem_channels.1 hd)
  rw [canonical]
  generalize split : channels digits = pairs at hex
  have length := h.length_channels
  rw [split] at length
  match pairs, length with
  | [r, r', g, g', b, b'], _ => exact ⟨_, ofHex?_of_six h split, toHex_channels 1 hex⟩
  | [r, r', g, g', b, b', a, a'], _ =>
    refine ⟨_, ofHex?_of_eight h split, toHex_channels _ fun d hd => hex d ?_⟩
    exact List.mem_of_mem_take (i := 6) hd

/-- Only a sharp and digits of a color are read. -/
theorem isSome_ofHex?_iff :
    (ofHex? s).isSome = true ↔ ∃ digits, s = '#' :: digits ∧ ColorDigits digits := by
  constructor
  · intro h
    obtain ⟨c, read⟩ := Option.isSome_iff_exists.1 h
    unfold ofHex? at read
    split at read
    · rename_i digits
      obtain ⟨hex, read⟩ := Option.ite_none_right_eq_some.1 read
      refine ⟨digits, rfl, List.all_eq_true.1 hex, ?_⟩
      by_contra count
      rw [expandDigits_eq_none count] at read
      cases read
    · cases read
  · rintro ⟨digits, rfl, h⟩
    obtain ⟨c, read, -⟩ := exists_ofHex? h
    rw [read, Option.isSome_some]

/-- Three or four digits are read as if each of them were written twice. -/
theorem ofHex?_doubled (count : digits.length = 3 ∨ digits.length = 4) :
    ofHex? ('#' :: digits) = ofHex? ('#' :: doubled digits) := by
  have hex : (doubled digits).all isHexDigit = digits.all isHexDigit := by
    rw [Bool.eq_iff_iff, List.all_eq_true, List.all_eq_true]
    simp only [mem_doubled]
  have pairs : channels digits = doubled digits := if_pos (by omega)
  have same : channels (doubled digits) = doubled digits :=
    if_neg (by rw [length_doubled]; omega)
  have short : digits.length ∈ [3, 4, 6, 8] := by simp; omega
  have long : (doubled digits).length ∈ [3, 4, 6, 8] := by
    rw [length_doubled]
    simp
    omega
  rw [ofHex?, ofHex?, hex, expandDigits_eq short, expandDigits_eq long, pairs, same]

end Rgba

namespace Color

open ColorDigits

variable {text : String} {digits : List Char}

/-- A text of digits is read in either case, and with blanks or quotes around it. -/
theorem parse?_hexadecimal (h : unquote text.toList = '#' :: digits) (hd : ColorDigits digits) :
    ∃ c, parse? text = some c ∧ c.toHex = canonical digits := by
  obtain ⟨c, read, written⟩ := Rgba.exists_ofHex? hd.map_toLower
  refine ⟨c, ?_, by rw [written, canonical_map_toLower]⟩
  have sharp : '#'.toLower = '#' := by decide
  rw [parse?, h, List.map_cons, sharp, read?, if_pos (by rfl), read]

end Color

end DesignTokens
