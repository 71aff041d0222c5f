import DesignTokens.Decimal.Fixed
import DesignTokens.Text.Basic

/-!
# Colors

A color has three gamma-encoded channels of sRGB and an opacity, each meant to lie between 0 and 1. It
is written with eight bits for each channel, as `#rrggbb` or as `rgba(r, g, b, a)`. The hexadecimal
notation of CSS, with three, four, six or eight digits, is read here as well.
-/

namespace DesignTokens

open Text

/-- A color with opacity. -/
structure Rgba where
  red : Float
  green : Float
  blue : Float
  alpha : Float
  deriving DecidableEq

namespace Rgba

/-- The opaque color of three bytes. -/
def ofBytes (red green blue : Nat) : Rgba :=
  ⟨Float.ofNat red / 255, Float.ofNat green / 255, Float.ofNat blue / 255, 1⟩

def white : Rgba := ⟨1, 1, 1, 1⟩

def black : Rgba := ⟨0, 0, 0, 1⟩

/-- A channel brought into the range from 0 to 1; one that is not a number becomes 0. -/
def clampChannel (x : Float) : Float := if x.isNaN then 0 else Binary64.clamp x 0 1

/-- The color with every channel in range. -/
def clamped (c : Rgba) : Rgba :=
  ⟨clampChannel c.red, clampChannel c.green, clampChannel c.blue, clampChannel c.alpha⟩

/-- The color with another opacity. -/
def withAlpha (c : Rgba) (alpha : Float) : Rgba := { c with alpha := Binary64.clamp alpha 0 1 }

/-- A channel in range as the nearest of 256 steps. -/
def byte (x : Float) : Nat := (Binary64.round (x * 255)).toUInt8.toNat

/-- The three channels as bytes. -/
def bytes (c : Rgba) : Nat × Nat × Nat :=
  let c := c.clamped
  (byte c.red, byte c.green, byte c.blue)

/-- The nearest color that can be written. -/
def quantized (c : Rgba) : Rgba :=
  let (red, green, blue) := c.bytes
  (ofBytes red green blue).withAlpha c.alpha

/-- The two digits of a byte in base sixteen. -/
def hexPair (n : Nat) : List Char := [Nat.digitChar (n / 16), Nat.digitChar (n % 16)]

/-- The color as `#rrggbb`; the opacity is left out. -/
def toHex (c : Rgba) : String :=
  let (red, green, blue) := c.bytes
  String.ofList ('#' :: (hexPair red ++ hexPair green ++ hexPair blue))

/-- The color as `rgba(r, g, b, a)`. -/
def toFunctional (c : Rgba) : String :=
  let (red, green, blue) := c.bytes
  "rgba(" ++ ", ".intercalate
    [toString red, toString green, toString blue, Decimal.formatNumber c.clamped.alpha 3] ++ ")"

/-- The digits of a hexadecimal color with two digits for each channel. -/
def expandDigits (digits : List Char) : Option (List Char) :=
  if digits.length = 3 || digits.length = 4 then some (digits.flatMap fun c => [c, c])
  else if digits.length = 6 || digits.length = 8 then some digits
  else none

/-- The byte that two digits write. -/
def pairValue (high low : Char) : Nat := 16 * hexValue high + hexValue low

/-- The color of a text `#rgb`, `#rgba`, `#rrggbb` or `#rrggbbaa`. -/
def ofHex? (s : List Char) : Option Rgba :=
  match s with
  | '#' :: digits =>
    if digits.all isHexDigit then
      match expandDigits digits with
      | some [r, r', g, g', b, b'] =>
        some (ofBytes (pairValue r r') (pairValue g g') (pairValue b b'))
      | some [r, r', g, g', b, b', a, a'] =>
        some { ofBytes (pairValue r r') (pairValue g g') (pairValue b b') with
          alpha := Float.ofNat (pairValue a a') / 255 }
      | _ => none
    else none
  | _ => none

end Rgba

end DesignTokens
