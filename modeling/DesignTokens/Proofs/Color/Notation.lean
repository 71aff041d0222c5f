import DesignTokens.Color.Notation
import DesignTokens.Proofs.Binary64.Interval
import DesignTokens.Proofs.KeyedList
import DesignTokens.Proofs.Text.Ends

/-!
# Reading colors back

The hexadecimal text of a color reads back as the color of its bytes. Reading the bytes of such a color
again changes nothing, so a color is rounded once, when it is written.

A text that writes a color has neither blanks nor quotes around it once they are taken off, so it does
not matter how often this is done before it is read.
-/

namespace DesignTokens

open Binary64 Text

namespace Rgba

/-- The color that is read where a color was written in hexadecimal digits. -/
def written (c : Rgba) : Rgba := ofBytes c.bytes.1 c.bytes.2.1 c.bytes.2.2

/-- Two colors differ in opacity at most. -/
structure SameChannels (c d : Rgba) : Prop where
  red : c.red = d.red
  green : c.green = d.green
  blue : c.blue = d.blue

/-- Writing a color rounds none of its channels. -/
def Whole (c : Rgba) : Prop := SameChannels c.written c

section Bytes

variable {n : ℕ}

theorem byte_lt (x : Float) : byte x < 256 := UInt8.toNat_lt _

theorem lies_maxByte : Lies 255 255 255 :=
  ⟨255, value?_ofNat (n := 255) (by norm_num), le_rfl, le_rfl⟩

/-- The quotient of a byte is in range. -/
theorem lies_byte (h : n < 256) : Lies 0 1 (Float.ofNat n / 255) := by
  have below : (n : ℚ) ≤ 255 := by exact_mod_cast Nat.le_of_lt_succ h
  have byte : Lies 0 255 (Float.ofNat n) := ⟨n, value?_ofNat (by omega), n.cast_nonneg, below⟩
  exact byte.div lies_maxByte isDouble_zero isDouble_one le_rfl (by norm_num) (by norm_num) (by norm_num)

/-- The product that a byte is rounded from is less than a half away from the byte: dividing and
multiplying lose no more than what rounds the quotient outwards to multiples of `2 ^ -12`. -/
theorem lies_product (h : n < 256) : ∃ low high : ℚ, Lies low high (Float.ofNat n / 255 * 255) ∧
    0 ≤ low ∧ n - 1 / 2 ≤ low ∧ high < n + 1 / 2 := by
  have floor : 255 * (n * 2 ^ 12 / 255) ≤ n * 2 ^ 12 ∧ n * 2 ^ 12 ≤ 255 * (n * 2 ^ 12 / 255 + 1) ∧
      n * 2 ^ 12 / 255 < 2 ^ 13 := by omega
  generalize n * 2 ^ 12 / 255 = q at floor
  obtain ⟨above, below, bits⟩ := floor
  have above : (255 * q : ℚ) ≤ n * 2 ^ 12 := by exact_mod_cast above
  have below : (n * 2 ^ 12 : ℚ) ≤ 255 * (q + 1) := by exact_mod_cast below
  have byte : Lies n n (Float.ofNat n) := ⟨n, value?_ofNat (by omega), le_rfl, le_rfl⟩
  have quotient : Lies (q / 2 ^ 12) ((q + 1 : ℕ) / 2 ^ 12) (Float.ofNat n / 255) :=
    byte.div lies_maxByte (isDouble_div_two_pow (by omega) (by norm_num))
      (isDouble_div_two_pow (by omega) (by norm_num)) n.cast_nonneg (by norm_num) (by linarith)
      (by push_cast; linarith)
  have product : Lies ((255 * q : ℕ) / 2 ^ 12) ((255 * (q + 1) : ℕ) / 2 ^ 12)
      (Float.ofNat n / 255 * 255) :=
    quotient.mul lies_maxByte (isDouble_div_two_pow (by omega) (by norm_num))
      (isDouble_div_two_pow (by omega) (by norm_num)) (by positivity) (by norm_num)
      (by push_cast; linarith) (by push_cast; linarith)
  refine ⟨_, _, product, by positivity, ?_, ?_⟩ <;>
  · push_cast
    linarith

theorem toUInt8_ofScaled : ∀ n < 256, (ofScaled false n 0).toUInt8.toNat = n := by decide +kernel

/-- The quotient of a byte is rounded back to the byte. -/
theorem byte_channel (h : n < 256) : byte (clampChannel (Float.ofNat n / 255)) = n := by
  obtain ⟨v, value, above, below⟩ := lies_byte h
  have inside : clampChannel (Float.ofNat n / 255) = Float.ofNat n / 255 := by
    rw [clampChannel, isNaN_of_value? value, if_neg Bool.false_ne_true,
      clamp_of_between value value?_zero value?_one above below]
  obtain ⟨low, high, product, nonneg, least, most⟩ := lies_product h
  obtain ⟨negative, zero, rounded⟩ := exists_round_eq product nonneg least most (by omega)
  rw [inside, byte, rounded]
  cases negative with
  | false => exact toUInt8_ofScaled n h
  | true =>
    obtain rfl := zero rfl
    decide

/-- The bytes of the color of three bytes are these. -/
theorem bytes_ofBytes {red green blue : Nat} (hr : red < 256) (hg : green < 256) (hb : blue < 256) :
    (ofBytes red green blue).bytes = (red, green, blue) := by
  show (byte (clampChannel (Float.ofNat red / 255)), byte (clampChannel (Float.ofNat green / 255)),
    byte (clampChannel (Float.ofNat blue / 255))) = _
  rw [byte_channel hr, byte_channel hg, byte_channel hb]

theorem bytes_quantized (c : Rgba) : c.quantized.bytes = c.bytes :=
  bytes_ofBytes (byte_lt _) (byte_lt _) (byte_lt _)

theorem whole_ofBytes {red green blue : Nat} (hr : red < 256) (hg : green < 256) (hb : blue < 256) :
    Whole (ofBytes red green blue) := by
  rw [Whole, written, bytes_ofBytes hr hg hb]
  exact ⟨rfl, rfl, rfl⟩

theorem whole_quantized (c : Rgba) : Whole c.quantized := by
  rw [Whole, written, bytes_quantized]
  exact ⟨rfl, rfl, rfl⟩

theorem whole_black : Whole black := by
  have bytes : black = ofBytes 0 0 0 := by decide
  rw [bytes]
  exact whole_ofBytes (by decide) (by decide) (by decide)

theorem whole_white : Whole white := by
  have bytes : white = ofBytes 255 255 255 := by decide
  rw [bytes]
  exact whole_ofBytes (by decide) (by decide) (by decide)

end Bytes

section Hexadecimal

theorem hexDigit_digitChar : ∀ n < 16, isHexDigit (Nat.digitChar n) = true ∧
    (Nat.digitChar n).toLower = Nat.digitChar n ∧ hexValue (Nat.digitChar n) = n := by
  decide

/-- The two digits of a byte have its value. -/
theorem pairValue_hexPair {n : Nat} (h : n < 256) :
    pairValue (Nat.digitChar (n / 16)) (Nat.digitChar (n % 16)) = n := by
  have high := (hexDigit_digitChar (n / 16) (by omega)).2.2
  have low := (hexDigit_digitChar (n % 16) (by omega)).2.2
  rw [pairValue, high, low]
  omega

theorem all_hexPair {n : Nat} (h : n < 256) : (hexPair n).all isHexDigit = true := by
  have high := (hexDigit_digitChar (n / 16) (by omega)).1
  have low := (hexDigit_digitChar (n % 16) (by omega)).1
  simp [hexPair, high, low]

theorem map_toLower_hexPair {n : Nat} (h : n < 256) : (hexPair n).map Char.toLower = hexPair n := by
  have high := (hexDigit_digitChar (n / 16) (by omega)).2.1
  have low := (hexDigit_digitChar (n % 16) (by omega)).2.1
  simp [hexPair, high, low]

/-- The digits of a color are read as the color of its bytes. -/
theorem ofHex?_hexPair {red green blue : Nat} (hr : red < 256) (hg : green < 256) (hb : blue < 256) :
    ofHex? ('#' :: (hexPair red ++ hexPair green ++ hexPair blue)) =
      some (ofBytes red green blue) := by
  have digits : (hexPair red ++ hexPair green ++ hexPair blue).all isHexDigit = true := by
    simp only [List.all_append, all_hexPair hr, all_hexPair hg, all_hexPair hb, Bool.and_self]
  rw [ofHex?, if_pos digits]
  show some (ofBytes (pairValue _ _) (pairValue _ _) (pairValue _ _)) = _
  rw [pairValue_hexPair hr, pairValue_hexPair hg, pairValue_hexPair hb]

/-- The text is a sharp and six digits of base sixteen, in lower case. -/
def IsHexadecimal (text : String) : Prop :=
  ∃ digits, text.toList = '#' :: digits ∧ digits.length = 6 ∧
    ∀ d ∈ digits, isHexDigit d = true ∧ d.toLower = d

theorem isHexadecimal_toHex (c : Rgba) : IsHexadecimal c.toHex := by
  have pair {n : Nat} (h : n < 256) (d : Char) (hd : d ∈ hexPair n) :
      isHexDigit d = true ∧ d.toLower = d := by
    obtain rfl | rfl : d = Nat.digitChar (n / 16) ∨ d = Nat.digitChar (n % 16) := by
      simpa [hexPair] using hd
    · have high := hexDigit_digitChar (n / 16) (by omega)
      exact ⟨high.1, high.2.1⟩
    · have low := hexDigit_digitChar (n % 16) (by omega)
      exact ⟨low.1, low.2.1⟩
  refine ⟨_, String.toList_ofList, rfl, fun d hd => ?_⟩
  rcases List.mem_append.1 hd with hd | hd
  · rcases List.mem_append.1 hd with hd | hd
    · exact pair (byte_lt _) d hd
    · exact pair (byte_lt _) d hd
  · exact pair (byte_lt _) d hd

/-- A color that was read back is written the same. -/
theorem toHex_written (c : Rgba) : c.written.toHex = c.toHex := by
  have bytes : c.written.bytes = c.bytes := bytes_ofBytes (byte_lt _) (byte_lt _) (byte_lt _)
  rw [toHex, toHex, bytes]

theorem hexValue_lt (d : Char) : hexValue d < 16 := by
  have below {a b : UInt32} (hab : a ≤ b) : a.toNat ≤ b.toNat := UInt32.le_iff_toNat_le.1 hab
  rw [hexValue]
  split
  · rename_i digit
    have high : d.toNat ≤ 57 := below (of_decide_eq_true ((Bool.and_eq_true _ _).mp digit).2)
    omega
  · split
    · rename_i lower
      have high : d.toNat ≤ 102 := below (of_decide_eq_true ((Bool.and_eq_true _ _).mp lower).2)
      omega
    · split
      · rename_i upper
        have high : d.toNat ≤ 70 := below (of_decide_eq_true ((Bool.and_eq_true _ _).mp upper).2)
        omega
      · omega

/-- Two digits write a byte. -/
theorem pairValue_lt (high low : Char) : pairValue high low < 256 := by
  have := hexValue_lt high
  have := hexValue_lt low
  rw [pairValue]
  omega

/-- A color that is read from hexadecimal digits has whole bytes. -/
theorem whole_of_ofHex? {s : List Char} {c : Rgba} (h : ofHex? s = some c) : Whole c := by
  have byte := pairValue_lt
  unfold ofHex? at h
  split at h
  · split at h
    · split at h
      · obtain rfl := Option.some.inj h
        exact whole_ofBytes (byte _ _) (byte _ _) (byte _ _)
      · obtain rfl := Option.some.inj h
        obtain ⟨red, green, blue⟩ := whole_ofBytes (byte _ _) (byte _ _) (byte _ _)
        exact ⟨red, green, blue⟩
      · simp at h
    · simp at h
  · simp at h

end Hexadecimal

end Rgba

namespace Color

variable {s body : List Char} {names : List String} {c : Rgba} {text : String}

theorem isBlank_of_isHexDigit {d : Char} (h : isHexDigit d = true) : isBlank d = false := by
  have range : 48 ≤ d.toNat ∧ d.toNat ≤ 102 := by
    have below {a b : UInt32} (hab : a ≤ b) : a.toNat ≤ b.toNat := UInt32.le_iff_toNat_le.1 hab
    simp only [isHexDigit, Char.isDigit, Bool.or_eq_true, Bool.and_eq_true, decide_eq_true_eq] at h
    rcases h with (⟨low, high⟩ | ⟨low, high⟩) | ⟨low, high⟩
    · exact ⟨below low, Nat.le_trans (below high) (by decide)⟩
    · exact ⟨Nat.le_trans (by decide) (below low), below high⟩
    · exact ⟨Nat.le_trans (by decide) (below low), Nat.le_trans (below high) (by decide)⟩
  simp only [isBlank, Bool.or_eq_false_iff, Bool.and_eq_false_iff, decide_eq_false_iff_not,
    beq_eq_false_iff_ne]
  omega

section Bare

theorem bare_of_ofHex? (h : Rgba.ofHex? s = some c) : Bare s := by
  unfold Rgba.ofHex? at h
  split at h
  · rename_i digits
    split at h
    · rename_i hex
      rcases List.eq_nil_or_concat digits with rfl | ⟨middle, last, rfl⟩
      · simp [Rgba.expandDigits] at h
      · rw [List.concat_eq_append, ← List.cons_append]
        exact .of_ends (by decide) (isBlank_of_isHexDigit (List.all_eq_true.1 hex last (by simp)))
    · simp at h
  · simp at h

/-- A functional notation begins with the name of its function and ends with a parenthesis. -/
theorem bare_function {name : List Char} (hn : Bare name) (blanks body : List Char) :
    Bare (name ++ (blanks ++ '(' :: (body ++ [')']))) := by
  obtain ⟨first, middle, last, rfl⟩ := hn.exists_ends
  have whole : first :: middle ++ [last] ++ (blanks ++ '(' :: (body ++ [')'])) =
      first :: (middle ++ [last] ++ blanks ++ '(' :: body) ++ [')'] := by simp
  rw [whole]
  exact .of_ends (hn.first first rfl) (by decide)

theorem bare_of_body? (hn : ∀ name ∈ names, Bare name.toList) (h : body? names s = some body) :
    Bare s := by
  obtain ⟨name, mem, h⟩ := List.exists_of_findSome?_eq_some h
  simp only [Option.bind_eq_bind, Option.bind_eq_some_iff, afterStart?_eq_some_iff,
    beforeLast?_eq_some_iff] at h
  obtain ⟨rest, rfl, inner, opens, rfl⟩ := h
  obtain ⟨blanks, rfl⟩ : ∃ blanks, rest = blanks ++ '(' :: (body ++ [')']) := by
    refine ⟨rest.takeWhile isBlank, ?_⟩
    rw [← List.singleton_append, ← opens]
    exact List.takeWhile_append_dropWhile.symm
  exact bare_function (hn name mem) blanks body

theorem bare_of_get?_names (h : KeyedList.get? Color.names (String.ofList s) = some c) : Bare s := by
  have all : ∀ entry ∈ Color.names, Bare entry.1.toList := by decide +kernel
  simpa using all _ (KeyedList.mem_of_get? h)

/-- A text that is read as a color is bare. -/
theorem bare_of_read? (h : read? s = some c) : Bare s := by
  unfold read? at h
  split at h
  · exact bare_of_ofHex? h
  · split at h
    · rename_i body
      exact bare_of_body? (by decide) body
    · split at h
      · rename_i body
        exact bare_of_body? (by decide) body
      · exact bare_of_get?_names h

/-- A text that begins with a sharp writes a color in whole bytes. -/
theorem whole_of_parse? (h : parse? text = some c) (sharp : (unquote text.toList).head? = some '#') :
    c.Whole := by
  have lower : ((unquote text.toList).map Char.toLower).head? = some '#' := by
    rw [List.head?_map, sharp]
    rfl
  rw [parse?, read?, if_pos lower] at h
  exact Rgba.whole_of_ofHex? h

/-- A text that writes a color writes it without the quotes as well, and is not empty then. -/
theorem parse?_unquoted (h : parse? text = some c) :
    parse? (unquoted text) = some c ∧ unquoted text ≠ "" := by
  have bare : Bare (unquote text.toList) := bare_of_map_toLower (bare_of_read? h)
  constructor
  · rw [parse?, unquoted, String.toList_ofList, unquote_of_bare bare]
    exact h
  · intro empty
    have length := bare.length
    rw [unquoted, ← String.toList_inj, String.toList_ofList] at empty
    simp [empty] at length

/-- The hexadecimal text of a color reads back as the color of its bytes. -/
theorem parse?_toHex (c : Rgba) : parse? c.toHex = some c.written := by
  have hr : c.bytes.1 < 256 := Rgba.byte_lt _
  have hg : c.bytes.2.1 < 256 := Rgba.byte_lt _
  have hb : c.bytes.2.2 < 256 := Rgba.byte_lt _
  have text : c.toHex.toList = '#' :: (Rgba.hexPair c.bytes.1 ++ Rgba.hexPair c.bytes.2.1 ++
      Rgba.hexPair c.bytes.2.2) := String.toList_ofList
  have read := Rgba.ofHex?_hexPair hr hg hb
  rw [← text] at read
  have lower : c.toHex.toList.map Char.toLower = c.toHex.toList := by
    have sharp : '#'.toLower = '#' := by decide
    simp only [text, List.map_cons, List.map_append, sharp, Rgba.map_toLower_hexPair hr,
      Rgba.map_toLower_hexPair hg, Rgba.map_toLower_hexPair hb]
  rw [parse?, unquote_of_bare (bare_of_ofHex? read), lower, read?, if_pos (by rw [text]; rfl)]
  exact read

end Bare

end Color

end DesignTokens
