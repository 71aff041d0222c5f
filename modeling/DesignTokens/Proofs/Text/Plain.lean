import Mathlib
import DesignTokens.Proofs.Text.Padding

/-!
# Plain texts

A text without blanks and quotes in it is the same trimmed and unquoted. Letters and digits are such
characters.
-/

namespace DesignTokens.Text

variable {s t : List Char} {c : Char}

section Characters

theorem isLetter_iff : isLetter c = true ↔
    (65 ≤ c.toNat ∧ c.toNat ≤ 90) ∨ (97 ≤ c.toNat ∧ c.toNat ≤ 122) := by
  simp [isLetter, Char.isAlpha, Char.isUpper, Char.isLower, UInt32.le_iff_toNat_le]

theorem isDigit_iff : isDigit c = true ↔ 48 ≤ c.toNat ∧ c.toNat ≤ 57 := by
  simp [isDigit, Char.isDigit, UInt32.le_iff_toNat_le]

theorem isLetter_toLower (h : isLetter c = true) : isLetter c.toLower = true := by
  grind [isLetter, Char.isAlpha, Char.isUpper, Char.isLower, Char.toLower]

theorem isLetter_of_toLower (h : isLetter c.toLower = true) : isLetter c = true := by
  grind [isLetter, Char.isAlpha, Char.isUpper, Char.isLower, Char.toLower]

theorem toLower_of_isDigit (h : isDigit c = true) : c.toLower = c := by
  grind [isDigit, Char.isDigit, Char.toLower]

@[simp] theorem toLower_toLower (c : Char) : c.toLower.toLower = c.toLower := by
  grind [Char.toLower]

end Characters

/-- A character is neither a blank nor a quote. -/
def isPlain (c : Char) : Bool := !isBlank c && c != '\'' && c != '"'

theorem isPlain_of_range (h : 34 < c.toNat ∧ c.toNat < 128 ∧ c.toNat ≠ 39) : isPlain c = true := by
  have quotes : c ≠ '\'' ∧ c ≠ '"' := by
    constructor <;> rintro rfl <;> simp at h
  have blank : isBlank c = false := by
    simp only [isBlank, Bool.or_eq_false_iff, Bool.and_eq_false_iff, decide_eq_false_iff_not,
      beq_eq_false_iff_ne]
    omega
  simp [isPlain, blank, quotes]

theorem isPlain_of_isLetter (h : isLetter c = true) : isPlain c = true := by
  have := isLetter_iff.1 h
  exact isPlain_of_range (by omega)

theorem isPlain_of_isDigit (h : isDigit c = true) : isPlain c = true := by
  have := isDigit_iff.1 h
  exact isPlain_of_range (by omega)

theorem trim_of_plain (h : s.all isPlain = true) : trim s = s := by
  refine trim_of_solid fun c hc => ?_
  have plain := List.all_eq_true.1 h c hc
  simp only [isPlain, Bool.and_eq_true, Bool.not_eq_true'] at plain
  exact plain.1.1

theorem unquote_of_plain (h : s.all isPlain = true) : unquote s = s := by
  rw [unquote, trim_of_plain h]
  match s with
  | [] => rfl
  | [_] => rfl
  | c :: _ :: _ =>
    have plain := List.all_eq_true.1 h c (by simp)
    simp only [isPlain, Bool.and_eq_true, bne_iff_ne] at plain
    simp [plain]

end DesignTokens.Text
