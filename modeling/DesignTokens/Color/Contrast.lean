import DesignTokens.Color.Oklab

/-!
# Contrast

The contrast ratio of two colors compares their relative luminances and lies between 1 and 21. A text
is readable when the ratio to its background reaches the one required for its size at a level of
conformance.

`adjustForContrast` moves the lightness of a color until it reaches a ratio on a background, and
stays as near to the given lightness as the search finds.
-/

namespace DesignTokens.Color

/-- The relative luminance of a color. -/
def luminance (c : Rgba) : Float :=
  0.2126 * linearLight c.red + 0.7152 * linearLight c.green + 0.0722 * linearLight c.blue

/-- The contrast ratio of two colors. -/
def contrastRatio (c d : Rgba) : Float :=
  let a := luminance c
  let b := luminance d
  if b ≤ a then (a + 0.05) / (b + 0.05) else (b + 0.05) / (a + 0.05)

/-- A level of conformance. -/
inductive Conformance where
  | aa
  | aaa
  deriving DecidableEq, Repr

namespace Conformance

/-- The level of a name, in any letter case. -/
def parse? (text : String) : Option Conformance :=
  if Text.sameLetters text "AA" then some .aa
  else if Text.sameLetters text "AAA" then some .aaa
  else none

end Conformance

/-- Whether a text is large: big, or not so big and bold. -/
inductive TextSize where
  | normal
  | large
  deriving DecidableEq, Repr

namespace TextSize

/-- The size of a name, in any letter case. -/
def parse? (text : String) : Option TextSize :=
  if Text.sameLetters text "normal" || Text.sameLetters text "small" then some .normal
  else if Text.sameLetters text "large" || Text.sameLetters text "bold" then some .large
  else none

end TextSize

/-- The contrast ratio that a text needs. -/
def requiredRatio : Conformance → TextSize → Float
  | .aa, .normal => 4.5
  | .aaa, .normal => 7
  | .aa, .large => 3
  | .aaa, .large => 4.5

/-- The luminance at which black and white text are equally readable. -/
def pivot : Float := 0.179

/-- Whether black text is the more readable one on a color. -/
def isLight (c : Rgba) : Bool := pivot < luminance c

/-- How often the search halves its interval. -/
def searchSteps : Nat := 32

/-- The passing end of the interval between a failing and a passing number, halved some times so that
one end goes on failing and the other passing. -/
def bisect (passes : Float → Bool) : Nat → Float → Float → Float
  | 0, _, passing => passing
  | steps + 1, failing, passing =>
    let middle := (failing + passing) / 2
    if passes middle then bisect passes steps failing middle
    else bisect passes steps middle passing

/-- The lightness of a color moved until the color, as it will be written, passes. The search goes
from the given lightness to `extreme`; when that fails as well, the better one of the color at
`extreme` and `fallback` is taken. -/
def adjustUntil (score : Rgba → Float) (target : Float) (color : Oklch) (extreme : Float)
    (fallback : Rgba) : Rgba :=
  let shown (lightness : Float) := (color.withLightness lightness).toRgba.quantized
  let passes (lightness : Float) : Bool := target ≤ score (shown lightness)
  if passes extreme then shown (bisect passes searchSteps color.lightness extreme)
  else if score (shown extreme) ≤ score fallback then fallback
  else shown extreme

/-- A color with the hue and the chroma of `color` that reaches the ratio `target` on a background,
or the best one found. -/
def adjustForContrast (color background : Rgba) (target : Float) : Rgba :=
  if target ≤ contrastRatio color background then color
  else
    let dark := isLight background
    adjustUntil (fun c => contrastRatio c background) target (.ofRgba color)
      (if dark then 0 else 1) (if dark then .black else .white)

end DesignTokens.Color
