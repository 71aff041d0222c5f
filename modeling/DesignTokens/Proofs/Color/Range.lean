import DesignTokens.Proofs.Color.Functional

/-!
# Colors in range

A color is in range if each of its channels is a number from 0 to 1, and its opacity as well. Every
color that is read is: in a functional notation whatever is computed is brought into range at the end,
hexadecimal digits are bytes, and the named colors are in range each.

A color that was rounded to bytes has its channels in range, even if its opacity is not a number.
-/

namespace DesignTokens

open Binary64

namespace Rgba

variable {c : Rgba} {n red green blue : ℕ}

/-- The channels of a color are numbers from 0 to 1. -/
structure InGamut (c : Rgba) : Prop where
  red : Lies 0 1 c.red
  green : Lies 0 1 c.green
  blue : Lies 0 1 c.blue

/-- The channels and the opacity of a color are numbers from 0 to 1. -/
structure InRange (c : Rgba) : Prop extends InGamut c where
  alpha : Lies 0 1 c.alpha

theorem inRange_clamped (c : Rgba) : InRange c.clamped where
  red := value?_clampChannel c.red
  green := value?_clampChannel c.green
  blue := value?_clampChannel c.blue
  alpha := value?_clampChannel c.alpha

theorem inRange_of_clamped_eq (h : c.clamped = c) : InRange c := h ▸ inRange_clamped c

theorem lies_one : Lies 0 1 1 := ⟨1, value?_one, zero_le_one, le_rfl⟩

theorem inGamut_ofBytes (hr : red < 256) (hg : green < 256) (hb : blue < 256) :
    InGamut (ofBytes red green blue) :=
  ⟨lies_byte hr, lies_byte hg, lies_byte hb⟩

/-- What is read where a color was written is in range, and so is a color that is not rounded then. -/
theorem inGamut_written (c : Rgba) : InGamut c.written :=
  inGamut_ofBytes (byte_lt _) (byte_lt _) (byte_lt _)

theorem inGamut_of_whole (h : Whole c) : InGamut c where
  red := h.red ▸ (inGamut_written c).red
  green := h.green ▸ (inGamut_written c).green
  blue := h.blue ▸ (inGamut_written c).blue

theorem inRange_of_ofHex? {s : List Char} (h : ofHex? s = some c) : InRange c := by
  unfold ofHex? at h
  split at h
  · split at h
    · split at h
      · obtain rfl := Option.some.inj h
        exact ⟨inGamut_ofBytes (pairValue_lt _ _) (pairValue_lt _ _) (pairValue_lt _ _), lies_one⟩
      · obtain rfl := Option.some.inj h
        obtain ⟨red, green, blue⟩ :=
          inGamut_ofBytes (pairValue_lt _ _) (pairValue_lt _ _) (pairValue_lt _ _)
        exact ⟨⟨red, green, blue⟩, lies_byte (pairValue_lt _ _)⟩
      · cases h
    · cases h
  · cases h

end Rgba

namespace Color

variable {c : Rgba} {s : List Char} {text : String}

/-- A number from 0 to 1 is one for the comparisons of doubles. -/
theorem unit_of_lies {x : Float} (h : Lies 0 1 x) : x.isNaN = false ∧ 0 ≤ x ∧ x ≤ 1 := by
  obtain ⟨v, value, above, below⟩ := h
  exact ⟨isNaN_of_value? value, (value?_le_iff value?_zero value).2 above,
    (value?_le_iff value value?_one).2 below⟩

theorem inRange_of_ofRgb? {components : Components} (h : ofRgb? components = some c) :
    c.InRange := by
  simp only [ofRgb?, Option.bind_eq_bind, Option.bind_eq_some_iff, Option.some.injEq] at h
  obtain ⟨red, -, green, -, blue, -, alpha, -, rfl⟩ := h
  exact Rgba.inRange_clamped _

theorem inRange_of_ofHsl? {components : Components} (h : ofHsl? components = some c) :
    c.InRange := by
  simp only [ofHsl?, Option.bind_eq_bind, Option.bind_eq_some_iff, Option.some.injEq] at h
  obtain ⟨hue, -, saturation, -, lightness, -, alpha, -, rfl⟩ := h
  exact Rgba.inRange_clamped _

theorem inRange_names : ∀ entry ∈ names, entry.2.InRange := by
  have bytes {red green blue : ℕ} (h : red < 256 ∧ green < 256 ∧ blue < 256) :
      (Rgba.ofBytes red green blue).InRange := ⟨Rgba.inGamut_ofBytes h.1 h.2.1 h.2.2, Rgba.lies_one⟩
  have transparent : Rgba.InRange ⟨0, 0, 0, 0⟩ := Rgba.inRange_of_clamped_eq (by decide)
  simp only [names, List.forall_mem_cons, List.not_mem_nil, false_imp_iff, implies_true, transparent,
    true_and, and_true]
  and_intros <;> exact bytes (by decide)

theorem inRange_of_get?_names (h : KeyedList.get? names (String.ofList s) = some c) : c.InRange :=
  inRange_names (String.ofList s, c) (KeyedList.mem_of_get? h)

/-- Every color that a text writes is in range. -/
theorem inRange_of_parse? (h : parse? text = some c) : c.InRange := by
  rw [parse?, read?] at h
  split at h
  · exact Rgba.inRange_of_ofHex? h
  · split at h
    · obtain ⟨components, -, read⟩ := Option.bind_eq_some_iff.1 h
      exact inRange_of_ofRgb? read
    · split at h
      · obtain ⟨components, -, read⟩ := Option.bind_eq_some_iff.1 h
        exact inRange_of_ofHsl? read
      · exact inRange_of_get?_names h

end Color

end DesignTokens
