import DesignTokens.Proofs.Dimension

/-!
# The pattern of a dimension

A dimension is found by a pattern: a numeral, and behind it a unit or nothing. The pattern may take more
characters for digits than can be read as such, and then a text fits it and is still no dimension.

What the pattern finds is told by the text alone: no character can both end a numeral and stand in a unit.
So there is one way to fit a text, and it makes no difference that the numeral is scanned off the front and
the unit is what is left.
-/

namespace DesignTokens.Dimension

open Text Decimal

/-- The characters that a pattern takes for digits: the ten of ASCII, and maybe others that are in no
unit. -/
structure DigitClass (digit : Char → Bool) : Prop where
  ascii : ∀ c, isDigit c = true → digit c = true
  apart : ∀ c, digit c = true → isLetter c = false ∧ c ≠ '%'

/-- A text fits the pattern with some number and some unit. -/
structure Captures (digit : Char → Bool) (s number unit : List Char) : Prop where
  text : s = number ++ unit
  numeral : ∃ n, NumeralText digit n number
  unit : isUnitText unit = true

variable {digit : Char → Bool} {s front middle number unit number' unit' : List Char} {n : Numeral}
variable {text : String} {d : Dimension}

theorem isLetter_or_percent (h : isUnitText s = true) : ∀ c ∈ s, isLetter c = true ∨ c = '%' := by
  rcases isUnitText_iff.1 h with letters | rfl
  · exact fun c hc => .inl (letters c hc)
  · simp

/-- A numeral does not go on into a unit. -/
theorem eq_nil_of_numeral_append (hd : DigitClass digit) (h : NumeralText digit n (front ++ middle))
    (hu : isUnitText (middle ++ unit) = true) : middle = [] := by
  rcases List.eq_nil_or_concat middle with none | ⟨others, c, rfl⟩
  · exact none
  · have ends := h.last c (by simp)
    have inside := isLetter_or_percent hu c (by simp)
    rcases ends with isDigit | rfl
    · obtain ⟨letter, percent⟩ := hd.apart c isDigit
      simp [letter, percent] at inside
    · exact absurd inside (by decide)

/-- There is one way to fit a text. -/
theorem Captures.unique (hd : DigitClass digit) (h : Captures digit s number unit)
    (h' : Captures digit s number' unit') : number = number' ∧ unit = unit' := by
  obtain ⟨n, numeral⟩ := h.numeral
  obtain ⟨n', numeral'⟩ := h'.numeral
  have same : number ++ unit = number' ++ unit' := h.text.symm.trans h'.text
  rcases List.append_eq_append_iff.1 same with ⟨middle, rfl, rfl⟩ | ⟨middle, rfl, rfl⟩
  · obtain rfl := eq_nil_of_numeral_append hd numeral' h.unit
    simp
  · obtain rfl := eq_nil_of_numeral_append hd numeral h'.unit
    simp

/-- A text is a dimension exactly if it fits the pattern with a number that is read as a finite double,
and with the unit of the dimension. -/
theorem parse?_eq_some_iff (hd : DigitClass digit) :
    parse? text = some d ↔ ∃ number unit x, Captures digit (trim text.toList) number unit ∧
      readFloat? number = some x ∧ x.isFinite = true ∧ of x (String.ofList unit) = d := by
  constructor
  · intro h
    rw [parse?] at h
    split at h
    · rename_i n unit scanned
      simp only [Option.ite_none_right_eq_some, Bool.and_eq_true, Option.some.injEq] at h
      obtain ⟨⟨unitText, finite⟩, same⟩ := h
      obtain ⟨number, split, numeral⟩ := scan_sound scanned
      exact ⟨number, unit, n.toFloat, ⟨split, ⟨n, numeral.mono hd.ascii⟩, unitText⟩,
        readFloat?_eq_some_iff.2 (.number numeral), finite, same⟩
    · cases h
  · rintro ⟨number, unit, x, ⟨split, ⟨n, numeral⟩, unitText⟩, read, finite, rfl⟩
    obtain ⟨m, numeral, rfl⟩ :=
      numeral.ascii (fun c hc => (hd.apart c hc).1) (readFloat?_eq_some_iff.1 read)
    rw [parse?, split, scan_append numeral (follows_of_isUnitText unitText)]
    simp [unitText, finite]

end DesignTokens.Dimension
