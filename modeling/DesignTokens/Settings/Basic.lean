import DesignTokens.Decimal.Shortest
import DesignTokens.Dimension

/-!
# Settings

What the functions of the catalog depend on besides their arguments: the base font size, the places
after the point in what they write, the viewports between which fluid sizes grow, the ratio of a
scale that names none, and the names of the functions that a browser understands by itself.

`Settings.validate` names the first setting that the functions cannot work with.
-/

namespace DesignTokens

/-- The settings of an engine. -/
structure Settings where
  /-- The pixels in one `rem` or `em`. -/
  baseFontSize : Float
  /-- The places after the point in a written number. -/
  precision : Nat
  /-- The smallest viewport of fluid sizes, in pixels. -/
  minViewport : Float
  /-- The largest viewport of fluid sizes, in pixels. -/
  maxViewport : Float
  /-- The name or the number of the ratio of a scale. -/
  defaultRatio : String
  /-- The functions that are left for the browser. -/
  cssPassthrough : List String
  deriving DecidableEq

namespace Settings

/-- The most places after the point. -/
def maxPrecision : Nat := 10

/-- The functions that a browser understands by itself. -/
def cssFunctions : List String :=
  [ "rgb", "rgba", "hsl", "hsla", "hwb", "lab", "lch", "oklab", "oklch", "color", "color-mix",
    "calc", "clamp", "min", "max", "var", "env", "url", "linear-gradient", "radial-gradient",
    "conic-gradient", "cubic-bezier", "steps", "translate", "rotate", "scale" ]

/-- The settings when nothing is set. -/
def builtin : Settings where
  baseFontSize := Dimension.defaultBase
  precision := 4
  minViewport := 320
  maxViewport := 1280
  defaultRatio := "majorThird"
  cssPassthrough := cssFunctions

/-- A setting that the functions cannot work with. -/
inductive Fault where
  | baseFontSize (found : Float)
  | precision (found : Nat)
  | minViewport (found : Float)
  | maxViewport (least found : Float)
  deriving DecidableEq

namespace Fault

/-- The name of the setting. -/
def field : Fault → String
  | .baseFontSize _ => "base_font_size"
  | .precision _ => "precision"
  | .minViewport _ => "min_viewport"
  | .maxViewport _ _ => "max_viewport"

/-- What is wrong with the setting. -/
def reason : Fault → String
  | .baseFontSize found => "must be a positive number, got " ++ Decimal.messageText found
  | .precision found =>
    "must be at most " ++ toString maxPrecision ++ ", got " ++ toString found
  | .minViewport found => "must be a non-negative number, got " ++ Decimal.messageText found
  | .maxViewport least found =>
    "must be greater than min_viewport (" ++ Decimal.messageText least ++ "), got " ++
      Decimal.messageText found

/-- The wording of a fault. -/
def message (f : Fault) : String :=
  "invalid configuration value for '" ++ f.field ++ "': " ++ f.reason

end Fault

/-- Nothing when the functions can work with every setting, and else the first fault. -/
def validate (s : Settings) : Except Fault Unit :=
  if !(s.baseFontSize.isFinite && 0 < s.baseFontSize) then .error (.baseFontSize s.baseFontSize)
  else if maxPrecision < s.precision then .error (.precision s.precision)
  else if !(s.minViewport.isFinite && 0 ≤ s.minViewport) then .error (.minViewport s.minViewport)
  else if !(s.maxViewport.isFinite && s.minViewport < s.maxViewport) then
    .error (.maxViewport s.minViewport s.maxViewport)
  else .ok ()

/-- Whether the functions can work with every setting. -/
def isValid (s : Settings) : Bool :=
  match s.validate with
  | .ok _ => true
  | .error _ => false

/-- Whether a function is left for the browser; the letter case of its name does not matter. -/
def isCssPassthrough (s : Settings) (name : String) : Bool :=
  s.cssPassthrough.any (Text.sameLetters name)

/-- The text of a number with a unit, with the places that are set. -/
def format (s : Settings) (value : Float) (unit : String) : String :=
  Dimension.format ⟨value, unit⟩ s.precision

end Settings

end DesignTokens
