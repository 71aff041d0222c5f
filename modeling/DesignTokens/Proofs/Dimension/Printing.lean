import DesignTokens.Proofs.Decimal.Canonical
import DesignTokens.Proofs.Dimension

/-!
# How dimensions are printed

A finite number is printed as the decimal that it is rounded to, in the one spelling that this decimal
has. A unit behind it does not run into the number: not even one that begins like an exponent, as there
are no digits in a unit. So the number and its unit are told apart again.
-/

namespace DesignTokens.Dimension

open Text Decimal Binary64

variable {x : Float}

/-- The unit behind a number does not change how the number is read. -/
theorem exists_parse?_format (finite : x.isFinite = true) (places : ℕ) {unit : String}
    (hu : IsUnit unit) : ∃ z, readFloat? (trimmedText places x) = some z ∧ z.isFinite = true ∧
      parse? (format ⟨x, unit⟩ places) = some ⟨z, unit⟩ := by
  obtain ⟨n, bounded, scanned⟩ := exists_scan_trimmedText finite places
  have alone := scanned [] follows_nil
  rw [List.append_nil] at alone
  refine ⟨n.toFloat, by rw [readFloat?, alone], bounded, ?_⟩
  rw [parse?, trim_format (d := ⟨x, unit⟩) hu, scanned _ (follows_of_isUnitText hu.text)]
  simp [hu.text, bounded, of, String.ofList_toList, hu.lower]

/-- A finite number is printed as the decimal that it is rounded to, in a spelling of its own: with no
zeros and no point at the end and not as a negative zero. It is printed like no number that is rounded to
another decimal, and with a unit behind it it is read as it is read without one. -/
theorem printed_canonical (finite : x.isFinite = true) (places : ℕ) : ∃ v q : ℚ,
    value? x = some v ∧ |q - v| ≤ 1 / 2 / 10 ^ places ∧
      (IsFixed places (fixedText places x) ∧ Denotes (fixedText places x) q) ∧
      (IsTrimmed (formatNumber x places).toList ∧ Denotes (formatNumber x places).toList q) ∧
      (∀ y r, y.isFinite = true → Denotes (fixedText places y) r →
        (formatNumber x places = formatNumber y places ↔ q = r)) ∧
      ∀ unit, IsUnit unit → ∃ z, readFloat? (formatNumber x places).toList = some z ∧
        z.isFinite = true ∧ parse? (format ⟨x, unit⟩ places) = some ⟨z, unit⟩ := by
  have text (x : Float) : (formatNumber x places).toList = trimmedText places x := String.toList_ofList
  obtain ⟨v, hv⟩ := isFinite_iff.1 finite
  obtain ⟨negative, m, e, viewed, -⟩ := exists_view_of_value? hv
  refine ⟨v, decimal negative places (fixedDigits m e places), hv, decimal_near viewed places hv,
    ⟨isFixed_fixedText viewed places, denotes_fixedText viewed places⟩, ?_, ?_, ?_⟩
  · rw [text]
    exact ⟨isTrimmed_trimmedText viewed places, denotes_trimmedText viewed places⟩
  · intro y r hy denoted
    obtain ⟨w, hw⟩ := isFinite_iff.1 hy
    obtain ⟨negative', k, f, viewed', -⟩ := exists_view_of_value? hw
    rw [denoted.unique (denotes_fixedText viewed' places), ← trimmedText_inj viewed viewed', ← text x,
      ← text y, String.toList_inj]
  · intro unit hu
    rw [text]
    exact exists_parse?_format finite places hu

/-- For a unit that an exponent begins with. -/
theorem printed_canonical_exponent :
    (-1.5 : Float).isFinite = true ∧ IsUnit "e" ∧ formatNumber (-1.5) 3 = "-1.5" ∧
      ∃ z, readFloat? "-1.5".toList = some z ∧ z.isFinite = true ∧ parse? "-1.5e" = some ⟨z, "e"⟩ := by
  have finite : (-1.5 : Float).isFinite = true := by decide +kernel
  have unit : IsUnit "e" := isUnit_ofList rfl rfl
  have text : formatNumber (-1.5) 3 = "-1.5" := by decide +kernel
  have whole : format ⟨-1.5, "e"⟩ 3 = "-1.5e" := by rw [format, text]; rfl
  obtain ⟨v, q, -, -, -, -, -, units⟩ := printed_canonical finite 3
  have read := units "e" unit
  rw [text, whole] at read
  exact ⟨finite, unit, text, read⟩

end DesignTokens.Dimension
