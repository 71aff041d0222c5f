import DesignTokens.Catalog.Basic
import DesignTokens.Color.Contrast

/-!
# The contrast functions

A contrast function compares colors by their contrast ratio. A question is answered by the texts `true`
and `false`; a color is written as `#rrggbb`.
-/

namespace DesignTokens.ContrastFunctions

open Color

/-- The text of a truth value. -/
def boolText (b : Bool) : String := if b then "true" else "false"

/-- The ratio that a level and a size, both given by name, require. -/
def threshold (level size : String) : Except FunctionError Float :=
  match TextSize.parse? size with
  | none =>
    .error (.invalidArgument "size" ("'" ++ size.toLower ++ "' is not normal or large"))
  | some textSize =>
    match Conformance.parse? level with
    | none => .error (.invalidArgument "level" ("'" ++ level.toUpper ++ "' is not AA or AAA"))
    | some conformance => .ok (requiredRatio conformance textSize)

/-- The contrast ratio of two colors. -/
def ratio : FunctionBody := fun args _ => do
  args.atMost 2
  let a ← args.color 0 "a"
  let b ← args.color 1 "b"
  pure (Decimal.formatNumber (contrastRatio a b) 2)

/-- Whether a text of some size reaches the ratio that a level requires. -/
def meetsContrast : FunctionBody := fun args _ => do
  args.atMost 4
  let fg ← args.color 0 "fg"
  let bg ← args.color 1 "bg"
  let required ← threshold ((args.optional? 2).getD "AA") ((args.optional? 3).getD "normal")
  pure (boolText (required ≤ contrastRatio fg bg))

/-- The one of two text colors that has the larger contrast; the light one when they are equal. -/
def accessibleText : FunctionBody := fun args _ => do
  args.atMost 3
  let bg ← args.color 0 "bg"
  let light ← args.orElse 1 .white Arguments.readColor
  let dark ← args.orElse 2 .black Arguments.readColor
  pure (if contrastRatio dark bg ≤ contrastRatio light bg then light else dark).toHex

/-- A color moved in lightness until it reaches a ratio between 1 and 21. -/
def ensureContrast : FunctionBody := fun args _ => do
  args.atMost 3
  let fg ← args.color 0 "fg"
  let bg ← args.color 1 "bg"
  let target ← args.orElse 2 (requiredRatio .aa .normal) Arguments.readNumber
  if 1 ≤ target && target ≤ 21 then pure (adjustForContrast fg bg target).toHex
  else
    .error (.invalidArgument "ratio" (Decimal.messageText target ++ " is outside 1..21"))

/-- The relative luminance of a color. -/
def luminance : FunctionBody := fun args _ => do
  args.atMost 1
  let color ← args.color 0 "color"
  pure (Decimal.formatNumber (Color.luminance color) Settings.builtin.precision)

/-- Whether black text is the more readable one on a color. -/
def isLight : FunctionBody := fun args _ => do
  args.atMost 1
  let color ← args.color 0 "color"
  pure (boolText (Color.isLight color))

/-- Whether white text is the more readable one on a color. -/
def isDark : FunctionBody := fun args _ => do
  args.atMost 1
  let color ← args.color 0 "color"
  pure (boolText (!Color.isLight color))

/-- A color with the hue of the background that can be read on it. -/
def accessiblePair : FunctionBody := fun args _ => do
  args.atMost 2
  let bg ← args.color 0 "bg"
  let target ← threshold ((args.optional? 1).getD "AA") "normal"
  pure (adjustForContrast bg bg target).toHex

/-- The functions of the family. -/
def table : List CatalogEntry :=
  let entry (name signature description : String) (body : FunctionBody) : CatalogEntry :=
    ⟨⟨name, .contrast, signature, description⟩, body⟩
  [ entry "contrastRatio" "contrastRatio(a, b)" "WCAG contrast ratio between two colors" ratio,
    entry "meetsContrast" "meetsContrast(fg, bg, level=AA, size=normal)"
      "Whether a pair passes WCAG AA/AAA" meetsContrast,
    entry "accessibleText" "accessibleText(bg, light=#ffffff, dark=#000000)"
      "Pick the candidate text color with more contrast" accessibleText,
    entry "ensureContrast" "ensureContrast(fg, bg, ratio=4.5)"
      "Nudge foreground lightness until the ratio is met" ensureContrast,
    entry "luminance" "luminance(color)" "WCAG relative luminance" luminance,
    entry "isLight" "isLight(color)" "Luminance above the black/white pivot" isLight,
    entry "isDark" "isDark(color)" "Luminance at or below the pivot" isDark,
    entry "accessiblePair" "accessiblePair(bg, level=AA)"
      "Hue-matched foreground that passes on the background" accessiblePair ]

end DesignTokens.ContrastFunctions
