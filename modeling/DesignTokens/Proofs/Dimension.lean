import DesignTokens.Dimension
import DesignTokens.Proofs.Decimal.Numeral
import DesignTokens.Proofs.Text.Plain

/-!
# Dimensions that are written and read

A dimension with a finite value and a unit reads back from the text it is written as, with its unit and
with its value rounded to the places of the text. A value that is not finite is written with a name
instead of digits, and that text is not read as a dimension.
-/

namespace DesignTokens.Dimension

open Text Decimal

variable {d : Dimension} {text unit : String} {s : List Char}

/-- A unit as it is kept: a text that can follow a number, in lower case. -/
structure IsUnit (unit : String) : Prop where
  text : isUnitText unit.toList = true
  lower : unit.toLower = unit

/-- A dimension as it is read: with a finite value and a unit. -/
structure Sound (d : Dimension) : Prop where
  finite : d.value.isFinite = true
  unit : IsUnit d.unit

theorem isUnit_iff : IsUnit unit ↔ isUnitText unit.toList = true ∧ unit.toLower = unit :=
  ⟨fun h => ⟨h.text, h.lower⟩, fun h => ⟨h.1, h.2⟩⟩

instance (unit : String) : Decidable (IsUnit unit) := decidable_of_iff _ isUnit_iff.symm

section Units

theorem isUnitText_iff : isUnitText s = true ↔ (∀ c ∈ s, isLetter c = true) ∨ s = ['%'] := by
  simp [isUnitText]

theorem toLower_toLower (unit : String) : unit.toLower.toLower = unit.toLower := by
  rw [← String.toList_inj]
  simp [String.toLower]

theorem isUnit_toLower (h : isUnitText unit.toList = true) : IsUnit unit.toLower where
  text := by
    rw [String.toLower, String.toList_map]
    rcases isUnitText_iff.1 h with letters | percent
    · refine isUnitText_iff.2 (.inl fun c hc => ?_)
      obtain ⟨c, mem, rfl⟩ := List.mem_map.1 hc
      exact isLetter_toLower (letters c mem)
    · rw [percent]
      decide
  lower := toLower_toLower unit

theorem isUnit_ofList (text : isUnitText s = true) (lower : s.map Char.toLower = s) :
    IsUnit (String.ofList s) where
  text := by rwa [String.toList_ofList]
  lower := by rw [← String.toList_inj, String.toLower, String.toList_map, String.toList_ofList, lower]

theorem isUnit_empty : IsUnit "" := isUnit_ofList rfl rfl

theorem isUnit_percent : IsUnit "%" := isUnit_ofList rfl rfl

theorem all_isPlain_of_isUnitText (h : isUnitText s = true) : s.all isPlain = true := by
  rcases isUnitText_iff.1 h with letters | rfl
  · exact List.all_eq_true.2 fun c hc => isPlain_of_isLetter (letters c hc)
  · decide

/-- A unit does not go on with the number in front of it: the letter `e` has no digits behind it. -/
theorem follows_of_isUnitText (h : isUnitText s = true) : Follows s := by
  rcases isUnitText_iff.1 h with letters | rfl
  · have kinds {c : Char} (hc : c ∈ s) := apart_of_isLetter (letters c hc)
    refine ⟨fun c hc => (kinds (List.mem_of_mem_head? hc)).1,
      fun c hc => (kinds (List.mem_of_mem_head? hc)).2.1, ?_⟩
    match s with
    | [] => rfl
    | [c] => simp [Numeral.scanExponent, takeSign, cutWhile]
    | c :: d :: rest =>
      obtain ⟨digit, -, minus, plus⟩ := kinds (c := d) (by simp)
      simp [Numeral.scanExponent, takeSign, cutWhile, digit, minus, plus]
  · refine ⟨?_, ?_, rfl⟩ <;>
    · rintro c ⟨⟩
      decide

end Units

theorem isUnit_of_isLengthUnit (h : isLengthUnit unit = true) : IsUnit unit := by
  simp only [isLengthUnit, Bool.or_eq_true, beq_iff_eq] at h
  obtain ((rfl | rfl) | rfl) | rfl := h <;> exact isUnit_ofList rfl rfl

section Conversion

theorem isSome_toPx? (d : Dimension) (base : Float) : (d.toPx? base).isSome = isLengthUnit d.unit := by
  rw [toPx?, isLengthUnit]
  split_ifs <;> simp_all

theorem isSome_ofPx? (x : Float) (unit : String) (base : Float) :
    (ofPx? x unit base).isSome = isLengthUnit unit := by
  rw [ofPx?, isLengthUnit]
  split_ifs <;> simp_all

/-- Two different units convert exactly if both are units of length. -/
theorem isSome_convert?_iff (base : Float) (lower : unit.toLower = unit) (other : d.unit ≠ unit)
    (named : d.unit ≠ "") :
    (d.convert? unit base).isSome = true ↔ isLengthUnit unit = true ∧ isLengthUnit d.unit = true := by
  have step : ¬ (decide (d.unit = unit) || d.isUnitless) = true := by simp [isUnitless, other, named]
  simp only [convert?, lower, if_neg step, Option.bind_eq_bind]
  rw [← isSome_toPx? d base]
  cases d.toPx? base with
  | none => simp
  | some px =>
    rw [Option.bind_some, ← isSome_ofPx? px unit base]
    cases ofPx? px unit base <;> simp

end Conversion

/-- Only lengths are converted, and a bare number takes on any text as its unit. -/
theorem convert?_cases {base : Float} {r : Dimension} (hd : IsUnit d.unit)
    (h : d.convert? unit base = some r) :
    IsUnit r.unit ∨ (d.unit = "" ∧ r = ⟨d.value, unit.toLower⟩) := by
  rw [convert?] at h
  split at h
  · rename_i same
    obtain rfl := Option.some.inj h
    rcases (Bool.or_eq_true _ _).mp same with same | bare
    · exact .inl (of_decide_eq_true same ▸ hd)
    · exact .inr ⟨by simpa [isUnitless] using bare, rfl⟩
  · simp only [Option.bind_eq_bind, Option.bind_eq_some_iff, Option.some.injEq] at h
    obtain ⟨px, -, value, converted, rfl⟩ := h
    refine .inl (isUnit_of_isLengthUnit ?_)
    rw [ofPx?] at converted
    split_ifs at converted <;> simp_all [isLengthUnit]

/-- What is read as a dimension has a finite value and a unit. -/
theorem parse?_sound (h : parse? text = some d) : Sound d := by
  rw [parse?] at h
  split at h
  · rename_i n unit _
    simp only [Option.ite_none_right_eq_some, Bool.and_eq_true, Option.some.injEq] at h
    obtain ⟨⟨unitText, finite⟩, rfl⟩ := h
    exact ⟨finite, isUnit_toLower (by rwa [String.toList_ofList])⟩
  · cases h

/-- A dimension is read without the quotes around a text if it is read with them, as there are none. -/
theorem parse?_unquoted (h : parse? text = some d) : parse? (unquoted text) = some d := by
  have same : unquote text.toList = trim text.toList := by
    rw [unquote]
    split
    · rename_i first second rest split
      have quote : first ≠ '\'' ∧ first ≠ '"' := by
        constructor <;>
        · rintro rfl
          rw [parse?, split] at h
          cases h
      simp [quote]
    · rfl
  rw [parse?, unquoted, String.toList_ofList, same, trim_trim]
  exact h

section BareNumbers

variable {x : Float}

/-- A text that is not a numeral is read as no finite number. -/
theorem isFinite_of_scan_ne (h : ∀ n, Numeral.scan s ≠ some (n, [])) (hx : readFloat? s = some x) :
    x.isFinite = false := by
  rw [readFloat?] at hx
  split at hx
  · rename_i n scanned
    exact absurd scanned (h n)
  · dsimp only at hx
    split_ifs at hx <;>
    · obtain rfl := Option.some.inj hx
      decide

/-- A trimmed text is read as a finite number exactly if it is read as this number without a unit. -/
theorem readFloat?_finite_iff (trimmed : trim text.toList = text.toList) :
    (readFloat? text.toList = some x ∧ x.isFinite = true) ↔ parse? text = some (unitless x) := by
  rw [parse?, trimmed]
  match scanned : Numeral.scan text.toList with
  | some (n, []) =>
    have bare : of n.toFloat (String.ofList []) = unitless n.toFloat := by
      simp [of, unitless, String.toLower]
    have read : readFloat? text.toList = some n.toFloat := by rw [readFloat?, scanned]
    have unit : isUnitText [] = true := rfl
    simp only [read, bare, unit, Bool.true_and, Option.ite_none_right_eq_some, Option.some.injEq,
      unitless, Dimension.mk.injEq, and_true]
    constructor
    · rintro ⟨rfl, finite⟩
      exact ⟨finite, rfl⟩
    · rintro ⟨finite, rfl⟩
      exact ⟨rfl, finite⟩
  | some (n, c :: unit) =>
    constructor
    · rintro ⟨read, finite⟩
      rw [isFinite_of_scan_ne (by simp [scanned]) read] at finite
      cases finite
    · intro parsed
      obtain ⟨-, same⟩ := Option.ite_none_right_eq_some.1 parsed
      have unit := congrArg String.toList (congrArg Dimension.unit (Option.some.inj same))
      simp [of, unitless, String.toLower] at unit
  | none =>
    constructor
    · rintro ⟨read, finite⟩
      rw [isFinite_of_scan_ne (by simp [scanned]) read] at finite
      cases finite
    · simp

/-- A text that is read as a finite number has no blanks around it. -/
theorem trim_of_readFloat? (read : readFloat? s = some x) (finite : x.isFinite = true) : trim s = s := by
  by_cases numeral : ∃ n, Numeral.scan s = some (n, [])
  · obtain ⟨n, scanned⟩ := numeral
    exact trim_of_plain (scan_eq_some_nil_iff.1 scanned).all_isPlain
  · rw [isFinite_of_scan_ne (fun n scanned => numeral ⟨n, scanned⟩) read] at finite
    cases finite

theorem parse?_trimmed (text : String) : parse? (trimmed text) = parse? text := by
  rw [parse?, parse?, trimmed, String.toList_ofList, trim_trim]

/-- A text that is no dimension is not read as a finite number either, so the lenient reader takes it
for zero. -/
theorem parse_eq_getD (text : String) : parse text = (parse? text).getD (unitless 0) := by
  rw [parse]
  cases strict : parse? text with
  | some d => rfl
  | none =>
    cases read : readFloat? (trim text.toList) with
    | none => rfl
    | some x =>
      have infinite : ¬ x.isFinite = true := by
        intro finite
        have whole : (trimmed text).toList = trim text.toList := String.toList_ofList
        have bare := (readFloat?_finite_iff (by rw [whole, trim_trim])).1
          ⟨(congrArg readFloat? whole).trans read, finite⟩
        rw [parse?_trimmed, strict] at bare
        cases bare
      simp [infinite]

end BareNumbers

section ReadBack

theorem toList_format (d : Dimension) (places : ℕ) :
    (d.format places).toList = trimmedText places d.value ++ d.unit.toList := by
  rw [format, formatNumber, String.toList_append, String.toList_ofList]

theorem all_isPlain_format (hu : IsUnit d.unit) (places : ℕ) :
    (d.format places).toList.all isPlain = true := by
  rw [toList_format, List.all_append, all_isPlain_trimmedText, all_isPlain_of_isUnitText hu.text,
    Bool.and_self]

theorem trim_format (hu : IsUnit d.unit) (places : ℕ) :
    trim (d.format places).toList = trimmedText places d.value ++ d.unit.toList := by
  rw [trim_of_plain (all_isPlain_format hu places), toList_format]

/-- A finite value with a unit is read, rounded to the places, from the text it is written as. -/
theorem parse?_format (hu : IsUnit d.unit) (hf : d.value.isFinite = true) (places : ℕ) :
    ∃ x, parse? (d.format places) = some ⟨x, d.unit⟩ ∧ RoundedTo places d.value x := by
  obtain ⟨n, scanned, rounded⟩ := roundedTo_trimmedText hf places (follows_of_isUnitText hu.text)
  have finite : n.toFloat.isFinite = true := by
    obtain ⟨-, q, -, -, value, -⟩ := rounded
    exact Binary64.isFinite_iff.2 ⟨q, value⟩
  refine ⟨n.toFloat, ?_, rounded⟩
  rw [parse?, trim_format hu, scanned]
  simp [hu.text, finite, of, String.ofList_toList, hu.lower]

/-- Any other value is not read. -/
theorem parse?_format_of_not_finite (hu : IsUnit d.unit) (hf : d.value.isFinite = false)
    (places : ℕ) : parse? (d.format places) = none := by
  rw [parse?, trim_format hu, scan_trimmedText_of_not_finite hf]

/-- A text that is a number and a unit is read with this unit, if it is read at all. -/
theorem unit_of_parse?_format (hu : IsUnit unit) {x : Float} {places : ℕ} {r : Dimension}
    (h : parse? (format ⟨x, unit⟩ places) = some r) : r.unit = unit := by
  by_cases finite : x.isFinite = true
  · obtain ⟨y, parsed, -⟩ := parse?_format (d := ⟨x, unit⟩) hu finite places
    rw [parsed] at h
    obtain rfl := Option.some.inj h
    rfl
  · rw [parse?_format_of_not_finite (d := ⟨x, unit⟩) hu (Bool.eq_false_iff.2 finite)] at h
    cases h

end ReadBack

end DesignTokens.Dimension
