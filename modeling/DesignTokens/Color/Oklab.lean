import DesignTokens.Color.Rgba

/-!
# Perceptual coordinates

Oklab gives a color by its lightness and two opponent axes, Oklch by lightness, chroma and hue. Both
are reached from sRGB through linear light; the way back brings every channel into range.
-/

namespace DesignTokens

/-- The linear light of a gamma-encoded channel. -/
def linearLight (x : Float) : Float :=
  if x ≤ 0.04045 then x / 12.92 else Float.pow ((x + 0.055) / 1.055) 2.4

/-- The gamma-encoded channel of linear light. -/
def encodedLight (x : Float) : Float :=
  if x ≤ 0.0031308 then 12.92 * x else 1.055 * Float.pow x (1.0 / 2.4) - 0.055

/-- An angle in degrees brought into the range from 0 up to 360. -/
def normalizeHue (h : Float) : Float :=
  let h := Binary64.wrap h 360
  if 360 ≤ h then 0 else h

/-- A color by its lightness and its place between green and red and between blue and yellow. -/
structure Oklab where
  lightness : Float
  a : Float
  b : Float
  alpha : Float
  deriving DecidableEq

/-- A color by its lightness, its chroma and its hue in degrees. -/
structure Oklch where
  lightness : Float
  chroma : Float
  hue : Float
  alpha : Float
  deriving DecidableEq

namespace Oklab

/-- The coordinates of a color. -/
def ofRgba (c : Rgba) : Oklab :=
  let red := linearLight c.red
  let green := linearLight c.green
  let blue := linearLight c.blue
  let l := (0.4122214708 * red + 0.5363325363 * green + 0.0514459929 * blue).cbrt
  let m := (0.2119034982 * red + 0.6806995451 * green + 0.1073969566 * blue).cbrt
  let s := (0.0883024619 * red + 0.2817188376 * green + 0.6299787005 * blue).cbrt
  { lightness := 0.2104542553 * l + 0.7936177850 * m - 0.0040720468 * s
    a := 1.9779984951 * l - 2.4285922050 * m + 0.4505937099 * s
    b := 0.0259040371 * l + 0.7827717662 * m - 0.8086757660 * s
    alpha := c.alpha }

/-- The color of some coordinates, with every channel in range. -/
def toRgba (c : Oklab) : Rgba :=
  let cube (x : Float) := x * x * x
  let l := cube (c.lightness + 0.3963377774 * c.a + 0.2158037573 * c.b)
  let m := cube (c.lightness - 0.1055613458 * c.a - 0.0638541728 * c.b)
  let s := cube (c.lightness - 0.0894841775 * c.a - 1.2914855480 * c.b)
  Rgba.clamped
    { red := encodedLight (4.0767416621 * l - 3.3077115913 * m + 0.2309699292 * s)
      green := encodedLight (-1.2684380046 * l + 2.6097574011 * m - 0.3413193965 * s)
      blue := encodedLight (-0.0041960863 * l - 0.7034186147 * m + 1.7076147010 * s)
      alpha := c.alpha }

/-- The color a fraction `t` of the way from `c` to `d`. -/
def mix (c d : Oklab) (t : Float) : Oklab where
  lightness := c.lightness + (d.lightness - c.lightness) * t
  a := c.a + (d.a - c.a) * t
  b := c.b + (d.b - c.b) * t
  alpha := c.alpha + (d.alpha - c.alpha) * t

/-- The chroma below which a color has no hue. -/
def grayChroma : Float := 1e-9

/-- The polar coordinates of a color. -/
def toOklch (c : Oklab) : Oklch :=
  let chroma := (c.a * c.a + c.b * c.b).sqrt
  { lightness := c.lightness
    chroma := chroma
    hue :=
      if chroma < grayChroma then 0 else normalizeHue (Binary64.toDegrees (Float.atan2 c.b c.a))
    alpha := c.alpha }

end Oklab

namespace Oklch

/-- The coordinates of a color. -/
def ofRgba (c : Rgba) : Oklch := (Oklab.ofRgba c).toOklch

/-- The rectangular coordinates of a color. -/
def toOklab (c : Oklch) : Oklab :=
  let angle := Binary64.toRadians c.hue
  { lightness := c.lightness
    a := c.chroma * angle.cos
    b := c.chroma * angle.sin
    alpha := c.alpha }

/-- The color of some coordinates, with every channel in range. -/
def toRgba (c : Oklch) : Rgba := c.toOklab.toRgba

/-- The color with another lightness, brought into range. -/
def withLightness (c : Oklch) (lightness : Float) : Oklch :=
  { c with lightness := Binary64.clamp lightness 0 1 }

/-- The color with another chroma; a negative one becomes 0. -/
def withChroma (c : Oklch) (chroma : Float) : Oklch :=
  { c with chroma := Binary64.larger chroma 0 }

/-- The color with another hue, brought into range. -/
def withHue (c : Oklch) (hue : Float) : Oklch := { c with hue := normalizeHue hue }

end Oklch

end DesignTokens
