import DesignTokens.Proofs.Color.Range
import DesignTokens.Proofs.Color.Separators
import DesignTokens.Proofs.Decimal.Grammar

/-!
# Components of any spelling

A component of a functional notation is the text of a double with the marks that its place admits: one
percent sign for a channel and for the opacity, any number of them for a saturation and a lightness, any
number of `deg` for a hue. Nothing else is asked of it. It may be negative, beyond the range of its place
or of the doubles, infinite or no number at all, and the color is read all the same.

So a color does not owe its range to what is refused. An infinite hue or a saturation that is no number
makes channels that are no numbers; whatever they are, they and the opacity are brought between 0 and 1
in the end.
-/

namespace DesignTokens.Color

open Text Binary64 Decimal

/-- The text of a double, or of a percentage. -/
inductive FractionText : List Char → Prop where
  | number {s : List Char} {x : Float} (text : FloatText s x) : FractionText s
  | percentage {s t : List Char} {x : Float} (text : FloatText s x) (padded : Padded s t) :
    FractionText (t ++ ['%'])

/-- The text of a double with a mark behind it, any number of times. -/
inductive MarkedText (mark : List Char) : List Char → Prop where
  | number {s : List Char} {x : Float} (text : FloatText s x) : MarkedText mark s
  | marked {s : List Char} (front : MarkedText mark s) : MarkedText mark (s ++ mark)

variable {s : List Char} {x : Float}

section Fractions

theorem isSome_readFloat?_iff : (readFloat? s).isSome = true ↔ ∃ x, FloatText s x := by
  simp only [Option.isSome_iff_exists, readFloat?_eq_some_iff]

/-- A double is not written with a mark at the end. -/
theorem getLast?_ne_of_floatText (h : FloatText s x) : s.getLast? ≠ some '%' ∧ s.getLast? ≠ some 'g' := by
  constructor <;>
  · intro ends
    have last := h.last _ ends
    revert last
    decide

/-- A fraction is read from numbers and percentages, whatever they are. -/
theorem isSome_fraction?_iff (scale : Float) : (fraction? scale s).isSome = true ↔ FractionText s := by
  constructor
  · intro read
    rw [fraction?] at read
    split at read
    · rename_i percentage split
      obtain ⟨x, text⟩ := isSome_readFloat?_iff.1 (by simpa using read)
      rw [beforeLast?_eq_some_iff.1 split]
      exact .percentage text (padded_trim percentage)
    · obtain ⟨x, text⟩ := isSome_readFloat?_iff.1 (by simpa using read)
      exact .number text
  · intro text
    cases text with
    | number text =>
      rw [fraction?, beforeLast?_eq_none_iff.2 (getLast?_ne_of_floatText text).1, Option.isSome_map]
      exact isSome_readFloat?_iff.2 ⟨_, text⟩
    | percentage text padded =>
      have inner := trim_of_plain text.all_isPlain
      rw [fraction?, beforeLast?_eq_some_iff.2 rfl, Option.isSome_map, trim_eq_of_padded padded, inner]
      exact isSome_readFloat?_iff.2 ⟨_, text⟩

/-- An opacity may be absent. -/
theorem isSome_alpha?_iff {alpha : Option (List Char)} :
    (alpha? alpha).isSome = true ↔ ∀ d ∈ alpha, FractionText d := by
  cases alpha with
  | none => simp [alpha?]
  | some s => simp [alpha?, isSome_fraction?_iff]

end Fractions

section Marks

/-- A function takes every mark off the end of a text. -/
structure Strips (mark : List Char) (strip : List Char → List Char) : Prop where
  marked (s : List Char) : strip (s ++ mark) = strip s
  number {s : List Char} {x : Float} : FloatText s x → strip s = s
  /-- What is taken off are marks. -/
  front {s : List Char} : MarkedText mark (strip s) → MarkedText mark s

/-- A number is found under its marks, and nothing else is. -/
theorem Strips.isSome_iff {mark : List Char} {strip : List Char → List Char} (h : Strips mark strip) :
    (readFloat? (strip s)).isSome = true ↔ MarkedText mark s := by
  rw [isSome_readFloat?_iff]
  constructor
  · rintro ⟨x, text⟩
    exact h.front (.number text)
  · intro text
    induction text with
    | number text => exact ⟨_, by rwa [h.number text]⟩
    | marked front ih => rwa [h.marked]

theorem strips_percent : Strips ['%'] (dropEndWhile (· = '%')) where
  marked s := by rw [dropEndWhile_concat, if_pos (by decide)]
  number text := dropEndWhile_eq_self fun c hc => decide_eq_false fun sign => by
    rw [sign] at hc
    exact (getLast?_ne_of_floatText text).1 hc
  front {s} := by
    induction s using List.reverseRecOn with
    | nil => exact id
    | append_singleton front last ih =>
      rw [dropEndWhile_concat]
      split
      · rename_i sign
        obtain rfl : last = '%' := of_decide_eq_true sign
        exact fun text => .marked (ih text)
      · exact id

theorem dropDegrees_of_getLast? (h : s.getLast? ≠ some 'g') : dropDegrees s = s := by
  rw [← List.head?_reverse] at h
  rw [dropDegrees, dropDegrees.go.eq_def]
  split
  · rename_i rest same
    rw [same] at h
    exact absurd rfl h
  · exact List.reverse_reverse s

theorem strips_degrees : Strips ['d', 'e', 'g'] dropDegrees where
  marked s := by simp [dropDegrees, dropDegrees.go]
  number text := dropDegrees_of_getLast? (getLast?_ne_of_floatText text).2
  front {s} := by
    -- the text is read from its end
    have backwards (r : List Char) : MarkedText ['d', 'e', 'g'] (dropDegrees.go r).reverse →
        MarkedText ['d', 'e', 'g'] r.reverse := by
      fun_induction dropDegrees.go r with
      | case1 rest ih =>
        intro text
        have whole : ('g' :: 'e' :: 'd' :: rest).reverse = rest.reverse ++ ['d', 'e', 'g'] := by simp
        rw [whole]
        exact .marked (ih text)
      | case2 r => exact id
    intro text
    rw [← List.reverse_reverse s]
    exact backwards s.reverse text

theorem isSome_share?_iff : (share? s).isSome = true ↔ MarkedText ['%'] s := by
  rw [share?, Option.isSome_map, strips_percent.isSome_iff]

end Marks

section Components

/-- The texts that a family takes for its components, in lower case. -/
def Family.Takes : Family → Components → Prop
  | .rgb, c => (FractionText c.first ∧ FractionText c.second ∧ FractionText c.third) ∧
      ∀ d ∈ c.alpha, FractionText d
  | .hsl, c => (MarkedText ['d', 'e', 'g'] c.first ∧ MarkedText ['%'] c.second ∧
      MarkedText ['%'] c.third) ∧ ∀ d ∈ c.alpha, FractionText d

/-- A color is read if its components are numbers, whatever numbers they are. -/
theorem isSome_color?_iff (family : Family) (c : Components) :
    (family.color? c).isSome = true ↔ family.Takes c := by
  cases family with
  | rgb =>
    rw [Family.Takes, ← isSome_alpha?_iff, ← isSome_fraction?_iff 255, ← isSome_fraction?_iff 255,
      ← isSome_fraction?_iff 255]
    simp [Family.color?, ofRgb?, Option.isSome_iff_exists, Option.bind_eq_some_iff, and_assoc]
  | hsl =>
    rw [Family.Takes, ← isSome_alpha?_iff, ← strips_degrees.isSome_iff, ← isSome_share?_iff,
      ← isSome_share?_iff]
    simp [Family.color?, ofHsl?, Option.isSome_iff_exists, Option.bind_eq_some_iff, and_assoc]

end Components

/-- Whatever text a color is read from, its channels and its opacity are numbers from 0 to 1.

Nothing is refused for that: a functional notation is read exactly if its components are numbers, be they
negative, too large, infinite or not a number, and a hue may be any of them. -/
theorem parsed_in_range :
    (∀ text c, parse? text = some c →
      ∀ x ∈ [c.red, c.green, c.blue, c.alpha], x.isNaN = false ∧ 0 ≤ x ∧ x ≤ 1) ∧
      ∀ (family : Family) (components : Components) text, components.Sound →
        Writes family components text →
          ((parse? text).isSome = true ↔ family.Takes components.lower) := by
  constructor
  · intro text c read
    have range := inRange_of_parse? read
    simp only [List.forall_mem_cons, List.not_mem_nil, false_imp_iff, implies_true, and_true]
    exact ⟨unit_of_lies range.red, unit_of_lies range.green, unit_of_lies range.blue,
      unit_of_lies range.alpha⟩
  · intro family components text sound writes
    rw [parse?_writes sound writes]
    exact isSome_color?_iff family components.lower

/-- An infinite hue with an opacity that is no number; and channels below the range, beyond the doubles and
no number, with an opacity of minus infinity. -/
theorem parsed_in_range_infinite :
    (parse? "hsl(-inf, 200%, 50%, nan)" = some ⟨1, 0, 0, 0⟩ ∧
      ((1 : Float).isNaN = false ∧ (0 : Float) ≤ 1 ∧ (1 : Float) ≤ 1) ∧
      (0 : Float).isNaN = false ∧ (0 : Float) ≤ 0 ∧ (0 : Float) ≤ 1) ∧
      (Components.Sound ⟨"-1".toList, "1e999".toList, "NaN".toList, some "-inf%".toList⟩ ∧
        Writes .rgb ⟨"-1".toList, "1e999".toList, "NaN".toList, some "-inf%".toList⟩
          "rgb(-1 1e999 NaN/-inf%)") ∧
      (parse? "rgb(-1 1e999 NaN/-inf%)").isSome = true := by
  have sound : Components.Sound ⟨"-1".toList, "1e999".toList, "NaN".toList, some "-inf%".toList⟩ := by
    decide
  have blanks : Blanks ["-1".toList, "1e999".toList, "NaN".toList] "-1 1e999 NaN".toList :=
    .cons [] _ (by simp)
      (.cons [' '] _ (by simp [isBlank])
        (.cons [' '] _ (by simp [isBlank]) (.nil [] (by simp)) (by simp)) (by rintro _ ⟨⟩; rfl))
      (by rintro _ ⟨⟩; rfl)
  have writes : Writes .rgb ⟨"-1".toList, "1e999".toList, "NaN".toList, some "-inf%".toList⟩
      "rgb(-1 1e999 NaN/-inf%)" :=
    .three (.intro "rgb" [] (by decide) (by simp) (.slash (.inr blanks) (.refl _)) (.refl _))
  have number {s : List Char} (h : (readFloat? s).isSome = true) : ∃ x, FloatText s x :=
    isSome_readFloat?_iff.1 h
  have takes : Family.rgb.Takes
      (Components.lower ⟨"-1".toList, "1e999".toList, "NaN".toList, some "-inf%".toList⟩) := by
    obtain ⟨_, negative⟩ := number (s := "-1".toList) (by decide +kernel)
    obtain ⟨_, large⟩ := number (s := "1e999".toList) (by decide +kernel)
    obtain ⟨_, nan⟩ := number (s := "nan".toList) (by decide +kernel)
    obtain ⟨_, infinite⟩ := number (s := "-inf".toList) (by decide +kernel)
    refine ⟨⟨.number negative, .number large, .number nan⟩, ?_⟩
    rintro _ ⟨⟩
    exact .percentage infinite (.refl _)
  have read : parse? "hsl(-inf, 200%, 50%, nan)" = some ⟨1, 0, 0, 0⟩ := by decide +kernel
  obtain ⟨range, accepts⟩ := parsed_in_range
  have channels := range _ _ read
  exact ⟨⟨read, channels 1 (by simp), channels 0 (by simp)⟩, ⟨sound, writes⟩,
    (accepts _ _ _ sound writes).2 takes⟩

end DesignTokens.Color
