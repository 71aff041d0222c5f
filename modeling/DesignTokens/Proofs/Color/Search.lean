import DesignTokens.Color.Contrast
import DesignTokens.Proofs.Binary64
import DesignTokens.Proofs.Color.Notation

/-!
# The search for a readable color

A color is moved to a contrast ratio by a search over its lightness. Nothing is asked of the ratio for
this: it need not grow with the distance in lightness, and it jumps where colors are rounded or cut to
their range. So the search is looked at here for any `Measure` of contrast and any number of steps. It
answers a color that it has tried and found to pass, or the better one of two when it has found none.
-/

namespace DesignTokens

namespace Rgba

/-- A color that can be written is rounded to itself. -/
theorem quantized_quantized (c : Rgba) : c.quantized.quantized = c.quantized := by
  have opacity : Binary64.clamp (Binary64.clamp c.alpha 0 1) 0 1 = Binary64.clamp c.alpha 0 1 := by
    have ends : Binary64.clamp 0 0 1 = 0 ∧ Binary64.clamp 1 0 1 = 1 := by decide
    by_cases below : c.alpha < 0
    · have low : Binary64.clamp c.alpha 0 1 = 0 := by
        rw [Binary64.clamp, if_pos below]
        exact ends.1
      rw [low, ends.1]
    · by_cases above : c.alpha > 1
      · have high : Binary64.clamp c.alpha 0 1 = 1 := by
          simp only [Binary64.clamp, below, above, if_true, if_false]
        rw [high, ends.2]
      · have inside : Binary64.clamp c.alpha 0 1 = c.alpha := by
          simp only [Binary64.clamp, below, above, if_false]
        rw [inside, inside]
  show (ofBytes c.quantized.bytes.1 c.quantized.bytes.2.1 c.quantized.bytes.2.2).withAlpha
    c.quantized.alpha = _
  rw [bytes_quantized]
  exact congrArg (fun alpha => { ofBytes c.bytes.1 c.bytes.2.1 c.bytes.2.2 with alpha }) opacity

end Rgba

namespace Color

/-- A color as it is written at some lightness. -/
def shown (color : Oklch) (lightness : Float) : Rgba :=
  (color.withLightness lightness).toRgba.quantized

/-- The passing end of the interval goes on passing. -/
theorem passes_bisect {passes : Float → Bool} (steps : Nat) (failing : Float) {passing : Float}
    (h : passes passing = true) : passes (bisect passes steps failing passing) = true := by
  induction steps generalizing failing passing with
  | zero => exact h
  | succ steps ih =>
    rw [bisect]
    split
    · rename_i middle
      exact ih failing middle
    · exact ih _ h

/-- A measure of contrast: the ratio of two colors, and whether a background is so light that a color is
searched on the dark side of it. -/
structure Measure where
  ratio : Rgba → Rgba → Float
  light : Rgba → Bool

namespace Measure

/-- The measure by relative luminance. -/
def luminous : Measure := ⟨contrastRatio, isLight⟩

section Definitions

variable (μ : Measure)

/-- A color has the ratio `target` on a background, or a larger one. -/
def Reaches (target : Float) (bg c : Rgba) : Prop := target ≤ μ.ratio c bg

/-- The lightness at the end of the search on a background. -/
def extreme (bg : Rgba) : Float := if μ.light bg then 0 else 1

/-- The color on the side that is searched on a background: black or white. -/
def farthest (bg : Rgba) : Rgba := if μ.light bg then .black else .white

/-- The color at the end of the search: with the hue of `fg`, on the side that is searched. -/
def outermost (fg bg : Rgba) : Rgba := shown (.ofRgba fg) (μ.extreme bg)

/-- A color moved in lightness by a search of some steps until it has a ratio on a background. -/
def adjust (steps : Nat) (fg bg : Rgba) (target : Float) : Rgba :=
  if target ≤ μ.ratio fg bg then fg
  else if target ≤ μ.ratio (μ.outermost fg bg) bg then
    let passes (lightness : Float) : Bool := target ≤ μ.ratio (shown (.ofRgba fg) lightness) bg
    shown (.ofRgba fg) (bisect passes steps (Oklch.ofRgba fg).lightness (μ.extreme bg))
  else if μ.ratio (μ.outermost fg bg) bg ≤ μ.ratio (μ.farthest bg) bg then μ.farthest bg
  else μ.outermost fg bg

end Definitions

/-- The library adjusts colors by relative luminance. -/
theorem adjust_luminous : luminous.adjust searchSteps = adjustForContrast := by
  funext fg bg target
  simp only [adjust, adjustForContrast, adjustUntil, decide_eq_true_eq]
  rfl

section Adjust

variable (μ : Measure) {fg bg : Rgba} {target : Float} (steps : Nat)

theorem adjust_of_reaches (h : μ.Reaches target bg fg) : μ.adjust steps fg bg target = fg := if_pos h

/-- What a search comes to: a written color that passes, or the better one of two that do not. -/
theorem adjust_cases (h : ¬ μ.Reaches target bg fg) :
    let result := μ.adjust steps fg bg target
    (μ.Reaches target bg (μ.outermost fg bg) ∧ μ.Reaches target bg result ∧
        ∃ lightness, result = shown (.ofRgba fg) lightness) ∨
      (¬ μ.Reaches target bg (μ.outermost fg bg) ∧
        μ.ratio (μ.outermost fg bg) bg ≤ μ.ratio (μ.farthest bg) bg ∧ result = μ.farthest bg) ∨
      (¬ μ.Reaches target bg (μ.outermost fg bg) ∧
        ¬ μ.ratio (μ.outermost fg bg) bg ≤ μ.ratio (μ.farthest bg) bg ∧
        result = μ.outermost fg bg) := by
  intro result
  have searched : result = _ := if_neg h
  by_cases reached : μ.Reaches target bg (μ.outermost fg bg)
  · left
    let passes (lightness : Float) : Bool := target ≤ μ.ratio (shown (.ofRgba fg) lightness) bg
    have found : result = shown (.ofRgba fg)
        (bisect passes steps (Oklch.ofRgba fg).lightness (μ.extreme bg)) :=
      searched.trans (if_pos reached)
    have passing : passes (bisect passes steps (Oklch.ofRgba fg).lightness (μ.extreme bg)) = true :=
      passes_bisect steps _ (decide_eq_true reached)
    have passed : target ≤ μ.ratio result bg := by
      rw [found]
      exact of_decide_eq_true passing
    exact ⟨reached, passed, _, found⟩
  · right
    have missed := searched.trans (if_neg reached)
    split at missed
    · rename_i better
      exact .inl ⟨reached, better, missed⟩
    · rename_i worse
      exact .inr ⟨reached, worse, missed⟩

/-- What the search finds is written without being rounded. -/
theorem whole_adjust (h : ¬ μ.Reaches target bg fg) : (μ.adjust steps fg bg target).Whole := by
  rcases μ.adjust_cases steps h with ⟨-, -, lightness, found⟩ | ⟨-, -, found⟩ | ⟨-, -, found⟩
  · rw [found]
    exact Rgba.whole_quantized _
  · rw [found, farthest]
    split
    · exact Rgba.whole_black
    · exact Rgba.whole_white
  · rw [found]
    exact Rgba.whole_quantized _

/-- When the color on the side that is searched has the ratio, so has what is found, as far as its
contrast is a number. -/
theorem reaches_adjust (h : ¬ μ.Reaches target bg fg) (side : μ.Reaches target bg (μ.farthest bg)) :
    μ.Reaches target bg (μ.adjust steps fg bg target) ∨
      (μ.ratio (μ.adjust steps fg bg target) bg).isNaN = true := by
  rcases μ.adjust_cases steps h with ⟨-, found, -⟩ | ⟨-, -, found⟩ | ⟨ends, worse, found⟩
  · exact .inl found
  · rw [found]
    exact .inl side
  · right
    rw [found]
    refine eq_true_of_ne_false fun number => ?_
    rcases Binary64.le_total number (Binary64.isNaN_of_le side).2 with better | below
    · exact worse better
    · exact ends (Binary64.le_trans side below)

end Adjust

/-- What the search of a color `fg` that shall have a ratio on a background settles on. -/
structure Settled (μ : Measure) (target : Float) (fg bg result : Rgba) : Prop where
  /-- A color that has the ratio is left as it is. -/
  kept : μ.Reaches target bg fg → result = fg
  /-- Another one gets the ratio if the end of the search has it: it is the given color at some
  lightness, rounded to bytes. -/
  found : ¬ μ.Reaches target bg fg → μ.Reaches target bg (μ.outermost fg bg) →
    μ.Reaches target bg result ∧ result.quantized = result ∧
      ∃ lightness, result = ((Oklch.ofRgba fg).withLightness lightness).toRgba.quantized
  /-- Otherwise the end of the search stands against black or white. -/
  chosen : ¬ μ.Reaches target bg fg → ¬ μ.Reaches target bg (μ.outermost fg bg) →
    result = if μ.ratio (μ.outermost fg bg) bg ≤ μ.ratio (μ.farthest bg) bg then μ.farthest bg
      else μ.outermost fg bg
  /-- The one with the higher ratio is taken. -/
  better : ¬ μ.Reaches target bg fg → ¬ μ.Reaches target bg (μ.outermost fg bg) →
    ∀ other ∈ [μ.outermost fg bg, μ.farthest bg], (μ.ratio (μ.outermost fg bg) bg).isNaN = false →
      (μ.ratio (μ.farthest bg) bg).isNaN = false → μ.ratio other bg ≤ μ.ratio result bg

theorem settled_adjust (μ : Measure) (steps : Nat) (target : Float) (fg bg : Rgba) :
    μ.Settled target fg bg (μ.adjust steps fg bg target) where
  kept := μ.adjust_of_reaches steps
  found missed ends := by
    rcases μ.adjust_cases steps missed with ⟨-, reached, lightness, found⟩ | ⟨fails, -⟩ | ⟨fails, -⟩
    · refine ⟨reached, ?_, lightness, found⟩
      rw [found, shown, Rgba.quantized_quantized]
    · exact absurd ends fails
    · exact absurd ends fails
  chosen missed fails := by
    rcases μ.adjust_cases steps missed with ⟨ends, -⟩ | ⟨-, better, found⟩ | ⟨-, worse, found⟩
    · exact absurd ends fails
    · rw [found, if_pos better]
    · rw [found, if_neg worse]
  better missed fails other mem outerNumber farNumber := by
    simp only [List.mem_cons, List.not_mem_nil, or_false] at mem
    rcases μ.adjust_cases steps missed with ⟨ends, -⟩ | ⟨-, better, found⟩ | ⟨-, worse, found⟩
    · exact absurd ends fails
    · rw [found]
      rcases mem with rfl | rfl
      · exact better
      · exact Binary64.le_refl farNumber
    · rw [found]
      rcases mem with rfl | rfl
      · exact Binary64.le_refl outerNumber
      · exact (Binary64.le_total outerNumber farNumber).resolve_left worse

end Measure

/-- Whatever the ratio of two colors is, which side is searched, and however many steps are made, the
search settles: on the color itself if it has the ratio, else on a color in whole bytes that has it if
the end of the search has it, else on the better one of the end of the search and black or white. The
library searches by relative luminance. -/
theorem adjustForContrast_settles :
    Measure.luminous.adjust searchSteps = adjustForContrast ∧
      ∀ (μ : Measure) (steps : Nat) (target : Float) (fg bg : Rgba),
        μ.Settled target fg bg (μ.adjust steps fg bg target) :=
  ⟨Measure.adjust_luminous, Measure.settled_adjust⟩

end Color

end DesignTokens
