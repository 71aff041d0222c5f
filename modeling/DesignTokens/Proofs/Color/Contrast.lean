import DesignTokens.Catalog.ContrastFunctions
import DesignTokens.Proofs.Catalog.Arguments
import DesignTokens.Proofs.Color.Search

/-!
# The contrast that is reached

A color that is adjusted for contrast is compared with the ratio in one of two forms. The search looks
at colors as they will be written, so what it finds has the ratio when it is read back. A color that
has the ratio before any search is answered at once, and writing it can lose the ratio again.

The search goes to one side only, to black or to white, which the luminance of the background decides.
-/

namespace DesignTokens.Color

open Rgba

variable {fg bg c d : Rgba} {target : Float}

/-- A color has the contrast ratio `target` on a background, or a larger one. -/
def Reaches (target : Float) (bg c : Rgba) : Prop := target ≤ contrastRatio c bg

/-- The color on the side that is searched on a background: black or white. -/
def farthest (bg : Rgba) : Rgba := if isLight bg then .black else .white

/-- The color at the end of the search: with the hue of `fg`, on the side that is searched. -/
def outermost (fg bg : Rgba) : Rgba := shown (.ofRgba fg) (if isLight bg then 0 else 1)

theorem contrastRatio_congr (h : SameChannels c d) : contrastRatio c bg = contrastRatio d bg := by
  have same : luminance c = luminance d := by rw [luminance, luminance, h.red, h.green, h.blue]
  rw [contrastRatio, contrastRatio, same]

theorem reaches_congr (h : SameChannels c d) : Reaches target bg c ↔ Reaches target bg d := by
  rw [Reaches, Reaches, contrastRatio_congr h]

section Adjust

theorem adjustForContrast_of_reaches (h : Reaches target bg fg) :
    adjustForContrast fg bg target = fg := if_pos h

/-- Without the ratio, the answer is that of the search. -/
theorem adjustForContrast_cases (h : ¬ Reaches target bg fg) :
    let result := adjustForContrast fg bg target
    (Reaches target bg (outermost fg bg) ∧ Reaches target bg result ∧
        ∃ lightness, result = shown (.ofRgba fg) lightness) ∨
      (¬ Reaches target bg (outermost fg bg) ∧
        contrastRatio (outermost fg bg) bg ≤ contrastRatio (farthest bg) bg ∧
        result = farthest bg) ∨
      (¬ Reaches target bg (outermost fg bg) ∧
        ¬ contrastRatio (outermost fg bg) bg ≤ contrastRatio (farthest bg) bg ∧
        result = outermost fg bg) := by
  rw [← Measure.adjust_luminous]
  exact Measure.luminous.adjust_cases searchSteps h

/-- What the search finds is written without being rounded. -/
theorem whole_adjustForContrast (h : ¬ Reaches target bg fg) :
    (adjustForContrast fg bg target).Whole := by
  rw [← Measure.adjust_luminous]
  exact Measure.luminous.whole_adjust searchSteps h

/-- The search reaches the ratio exactly if the end of the search or the color on its side does. -/
theorem reaches_adjustForContrast_iff (h : ¬ Reaches target bg fg) :
    Reaches target bg (adjustForContrast fg bg target) ↔
      Reaches target bg (outermost fg bg) ∨
        (contrastRatio (outermost fg bg) bg ≤ contrastRatio (farthest bg) bg ∧
          Reaches target bg (farthest bg)) := by
  rcases adjustForContrast_cases h with ⟨ends, found, -⟩ | ⟨ends, better, found⟩ | ⟨ends, worse, found⟩
  · exact ⟨fun _ => .inl ends, fun _ => found⟩
  · rw [found]
    refine ⟨fun reached => .inr ⟨better, reached⟩, ?_⟩
    rintro (reached | ⟨-, reached⟩)
    · exact absurd reached ends
    · exact reached
  · rw [found]
    refine ⟨.inl, ?_⟩
    rintro (reached | ⟨better, -⟩)
    · exact reached
    · exact absurd better worse

/-- When the color on the side that is searched has the ratio, so has what is found, as far as its
contrast is a number. -/
theorem reaches_adjustForContrast (h : ¬ Reaches target bg fg) (side : Reaches target bg (farthest bg)) :
    Reaches target bg (adjustForContrast fg bg target) ∨
      (contrastRatio (adjustForContrast fg bg target) bg).isNaN = true := by
  rw [← Measure.adjust_luminous]
  exact Measure.luminous.reaches_adjust searchSteps h side

end Adjust

/-- What is promised of the color `d` that is read back from the answer to a foreground, a background
and a ratio. -/
structure Delivered (target : Float) (fg bg d : Rgba) : Prop where
  /-- A foreground that has the ratio is rounded and no more, which can lose the ratio. -/
  rounded : Reaches target bg fg → d = fg.written
  /-- A foreground of whole bytes is not even rounded. -/
  exact : Reaches target bg fg → fg.Whole → Reaches target bg d
  /-- Any other foreground is moved to the ratio if it can be had on the side that is searched. -/
  moved : ¬ Reaches target bg fg → (Reaches target bg d ↔ Reaches target bg (outermost fg bg) ∨
    (contrastRatio (outermost fg bg) bg ≤ contrastRatio (farthest bg) bg ∧
      Reaches target bg (farthest bg)))
  /-- So it is moved to the ratio if black or white, whichever is on this side, has it. -/
  side : ¬ Reaches target bg fg → Reaches target bg (farthest bg) →
    Reaches target bg d ∨ (contrastRatio d bg).isNaN = true

section Answer

open Arguments ContrastFunctions

theorem delivered (target : Float) (fg bg : Rgba) :
    Delivered target fg bg (adjustForContrast fg bg target).written where
  rounded reached := by rw [adjustForContrast_of_reaches reached]
  exact reached whole := by
    rw [adjustForContrast_of_reaches reached]
    exact (reaches_congr whole).2 reached
  moved missed := by
    rw [reaches_congr (whole_adjustForContrast missed)]
    exact reaches_adjustForContrast_iff missed
  side missed onSide := by
    have same := whole_adjustForContrast missed
    rw [reaches_congr same, contrastRatio_congr same]
    exact reaches_adjustForContrast missed onSide

/-- The answer is the text of a color that was adjusted to the ratio. -/
theorem ensureContrast_eq {foreground background : String} {ratio : List String}
    (hf : parse? foreground = some fg) (hb : parse? background = some bg) (few : ratio.length ≤ 1)
    (number : (Arguments.mk (foreground :: background :: ratio)).orElse 2 (requiredRatio .aa .normal)
      readNumber = .ok target)
    (range : 1 ≤ target ∧ target ≤ 21) (settings : Settings) :
    ensureContrast ⟨foreground :: background :: ratio⟩ settings =
      .ok (adjustForContrast fg bg target).toHex := by
  have count : (Arguments.mk (foreground :: background :: ratio)).atMost 3 = .ok () := by
    rw [atMost, if_neg]
    simp only [Arguments.count, List.length_cons]
    omega
  rw [ensureContrast, count, color_eq_of_parse? rfl hf, color_eq_of_parse? rfl hb, number]
  show (if _ then _ else _) = _
  rw [if_pos (by simp [range])]
  rfl

/-- For every foreground and background that are colors and every ratio from 1 to 21 there is an
answer, the answer reads back as a color, and what the contrast of this color is worth is known. A
foreground in hexadecimal digits has whole bytes. -/
theorem ensureContrast_delivers {foreground background : String} {ratio : List String}
    (hf : parse? foreground = some fg) (hb : parse? background = some bg) (few : ratio.length ≤ 1)
    (number : (Arguments.mk (foreground :: background :: ratio)).orElse 2 (requiredRatio .aa .normal)
      readNumber = .ok target)
    (range : 1 ≤ target ∧ target ≤ 21) (settings : Settings) :
    ∃ h d, ensureContrast ⟨foreground :: background :: ratio⟩ settings = .ok h ∧
      parse? h = some d ∧ Delivered target fg bg d ∧
      ((Text.unquote foreground.toList).head? = some '#' → fg.Whole) :=
  ⟨_, _, ensureContrast_eq hf hb few number range settings, parse?_toHex _, delivered target fg bg,
    whole_of_parse? hf⟩

/-- For a foreground of half a byte in each channel on a dark background. -/
theorem ensureContrast_delivers_half_bytes :
    parse? "rgb(0.5, 0.5, 0.5)" = some ⟨0.5 / 255, 0.5 / 255, 0.5 / 255, 1⟩ ∧
      parse? "#0a0a0a" = some (ofBytes 10 10 10) ∧ (1 : Float) ≤ 1.056 ∧ (1.056 : Float) ≤ 21 ∧
      ∃ h d, ensureContrast ⟨["rgb(0.5, 0.5, 0.5)", "#0a0a0a", "1.056"]⟩ .builtin = .ok h ∧
        parse? h = some d ∧
        Delivered 1.056 ⟨0.5 / 255, 0.5 / 255, 0.5 / 255, 1⟩ (ofBytes 10 10 10) d ∧
        ((Text.unquote "rgb(0.5, 0.5, 0.5)".toList).head? = some '#' →
          Rgba.Whole ⟨0.5 / 255, 0.5 / 255, 0.5 / 255, 1⟩) := by
  have hf : parse? "rgb(0.5, 0.5, 0.5)" = some ⟨0.5 / 255, 0.5 / 255, 0.5 / 255, 1⟩ := by
    decide +kernel
  have hb : parse? "#0a0a0a" = some (ofBytes 10 10 10) := by decide +kernel
  have range : (1 : Float) ≤ 1.056 ∧ (1.056 : Float) ≤ 21 := by decide +kernel
  exact ⟨hf, hb, range.1, range.2,
    ensureContrast_delivers hf hb (by decide) (by decide +kernel) range .builtin⟩

/-- The half bytes have the ratio and are rounded to whole ones, which do not have it, though black
has. -/
theorem ensureContrast_rounds_below :
    parse? "rgb(0.5, 0.5, 0.5)" = some ⟨0.5 / 255, 0.5 / 255, 0.5 / 255, 1⟩ ∧
      parse? "#0a0a0a" = some (ofBytes 10 10 10) ∧ (1 : Float) ≤ 1.056 ∧ (1.056 : Float) ≤ 21 ∧
      (Arguments.mk ["rgb(0.5, 0.5, 0.5)", "#0a0a0a", "1.056"]).number 2 "ratio" = .ok 1.056 ∧
      ensureContrast ⟨["rgb(0.5, 0.5, 0.5)", "#0a0a0a", "1.056"]⟩ .builtin = .ok "#010101" ∧
      parse? "#010101" = some (ofBytes 1 1 1) ∧
      ¬ (1.056 : Float) ≤ contrastRatio (ofBytes 1 1 1) (ofBytes 10 10 10) ∧
      (1.056 : Float) ≤ contrastRatio ⟨0.5 / 255, 0.5 / 255, 0.5 / 255, 1⟩ (ofBytes 10 10 10) ∧
      (1.056 : Float) ≤ contrastRatio .black (ofBytes 10 10 10) := by
  decide +kernel

end Answer

end DesignTokens.Color
