import DesignTokens.Catalog.Basic

/-!
# The color functions

A color function reads a color, moves it in Oklab or Oklch, and writes the nearest color with eight bits
for each channel as `#rrggbb`. `alpha` alone keeps the opacity and writes `rgba(...)`.
-/

namespace DesignTokens.ColorFunctions

/-- The color a fraction of the way from one color to another. The start itself is written as it is. -/
def mixToward (color target : Rgba) (t : Float) : String :=
  let t := Binary64.clamp t 0 1
  if t == 0 then color.toHex
  else ((Oklab.ofRgba color).mix (.ofRgba target) t).toRgba.toHex

/-- The first argument, moved in Oklch. -/
def move (args : Arguments) (f : Oklch → Oklch) : Except FunctionError String := do
  let color ← args.color 0 "color"
  pure (f (.ofRgba color)).toRgba.toHex

/-- The first argument, moved in Oklch by the amount that the second one writes. -/
def moveBy (args : Arguments) (f : Oklch → Float → Oklch) : Except FunctionError String := do
  let color ← args.color 0 "color"
  let amount ← args.amount 1 "amount"
  pure (f (.ofRgba color) amount).toRgba.toHex

/-- A color mixed with white in Oklab. -/
def tint : FunctionBody := fun args _ => do
  args.atMost 2
  let color ← args.color 0 "color"
  let amount ← args.amount 1 "amount"
  pure (mixToward color .white amount)

/-- A color mixed with black in Oklab. -/
def shade : FunctionBody := fun args _ => do
  args.atMost 2
  let color ← args.color 0 "color"
  let amount ← args.amount 1 "amount"
  pure (mixToward color .black amount)

/-- The color between two colors in Oklab, halfway when no ratio is given. -/
def mix : FunctionBody := fun args _ => do
  args.atMost 3
  let a ← args.color 0 "a"
  let b ← args.color 1 "b"
  let ratio ← args.orElse 2 0.5 Arguments.readAmount
  let ratio := Binary64.clamp ratio 0 1
  if ratio ≤ 0 then pure a.toHex
  else if 1 ≤ ratio then pure b.toHex
  else pure (mixToward a b ratio)

/-- A channel of Oklch. -/
inductive Channel where
  | lightness
  | chroma
  | hue
  deriving DecidableEq, Repr

namespace Channel

/-- The channel of a name or an initial, in any letter case. -/
def parse? (text : String) : Option Channel :=
  let text := text.toLower
  if text = "lightness" || text = "l" then some .lightness
  else if text = "chroma" || text = "c" then some .chroma
  else if text = "hue" || text = "h" then some .hue
  else none

end Channel

/-- How far each channel of Oklch is moved; the hue is in degrees. -/
structure Adjustment where
  lightness : Float
  chroma : Float
  hue : Float
  deriving DecidableEq

namespace Adjustment

/-- Nothing is moved. -/
def zero : Adjustment := ⟨0, 0, 0⟩

/-- The adjustment with the distance of one channel as an option gives it. -/
def set (a : Adjustment) (channel : String) (delta : Json) : Except FunctionError Adjustment :=
  match Channel.parse? channel with
  | some .lightness => do
    let x ← Arguments.amountOfOption delta
    pure { a with lightness := x }
  | some .chroma => do
    let x ← Arguments.numberOfOption delta
    pure { a with chroma := x }
  | some .hue => do
    let x ← Arguments.degreesOfOption delta
    pure { a with hue := x }
  | none =>
    .error (.invalidArgument "channel"
      ("'" ++ channel.toLower ++ "' is not one of lightness, chroma, hue"))

/-- The adjusted color. -/
def apply (a : Adjustment) (c : Oklch) : Oklch :=
  ((c.withLightness (c.lightness + a.lightness)).withChroma (c.chroma + a.chroma)).withHue
    (c.hue + a.hue)

end Adjustment

/-- The adjustment that the arguments behind the color ask for. -/
def adjustment (args : Arguments) : Except FunctionError Adjustment :=
  match args.options? with
  | some options => do
    args.atMost 2
    options.foldlM (fun a (channel, delta) => a.set channel delta) .zero
  | none => do
    args.atMost 3
    let channel ← args.required 1 "channel"
    let delta ← args.required 2 "delta"
    Adjustment.zero.set channel (.string delta)

/-- A color with its channels in Oklch moved, one by its name or several by options. -/
def adjust : FunctionBody := fun args _ => do
  let color ← args.color 0 "color"
  let a ← adjustment args
  pure (a.apply (.ofRgba color)).toRgba.toHex

/-- A color with another opacity. -/
def alpha : FunctionBody := fun args _ => do
  args.atMost 2
  let color ← args.color 0 "color"
  let opacity ← args.amount 1 "opacity"
  pure (color.withAlpha opacity).toFunctional

/-- The color on the other side of the circle of hues. -/
def complement : FunctionBody := fun args _ => move args fun c => c.withHue (c.hue + 180)

/-- A color with its chroma increased by a fraction of itself. -/
def saturate : FunctionBody := fun args _ =>
  moveBy args fun c amount => c.withChroma (c.chroma * (1 + amount))

/-- A color with its chroma decreased by a fraction of itself. -/
def desaturate : FunctionBody := fun args _ =>
  moveBy args fun c amount => c.withChroma (c.chroma * (1 - amount))

/-- The color with lightness and both axes mirrored in Oklab. -/
def invert : FunctionBody := fun args _ => do
  let color ← args.color 0 "color"
  let c := Oklab.ofRgba color
  pure (Oklab.mk (1 - c.lightness) (-c.a) (-c.b) c.alpha).toRgba.toHex

/-- A color without its chroma. -/
def grayscale : FunctionBody := fun args _ => move args fun c => c.withChroma 0

/-- A color with its lightness mirrored. -/
def darkMode : FunctionBody := fun args _ => move args fun c => c.withLightness (1 - c.lightness)

/-- A step of the palette that is grown from a base color. -/
structure PaletteStep where
  step : Nat
  lightness : Float
  /-- The part of the chroma of the base color. -/
  chroma : Float
  deriving DecidableEq

/-- The step of the base color itself. -/
def baseStep : Nat := 500

/-- All other steps. -/
def palette : List PaletteStep :=
  [ ⟨50, 0.97, 0.15⟩, ⟨100, 0.93, 0.30⟩, ⟨200, 0.87, 0.50⟩, ⟨300, 0.78, 0.70⟩, ⟨400, 0.68, 0.85⟩,
    ⟨600, 0.48, 0.95⟩, ⟨700, 0.40, 0.85⟩, ⟨800, 0.32, 0.70⟩, ⟨900, 0.25, 0.55⟩,
    ⟨950, 0.18, 0.45⟩ ]

/-- A step of the palette of a base color. -/
def colorScale : FunctionBody := fun args _ => do
  args.atMost 2
  let color ← args.color 0 "color"
  let text ← args.required 1 "step"
  match Decimal.readNat? Decimal.maxWord32 text.toList with
  | none => .error (.unknownStep text)
  | some step =>
    if step = baseStep then pure color.toHex
    else
      match palette.find? (·.step == step) with
      | none => .error (.unknownStep text)
      | some step =>
        let c := Oklch.ofRgba color
        pure ((c.withLightness step.lightness).withChroma (c.chroma * step.chroma)).toRgba.toHex

/-- A color with its lightness increased. -/
def lighten : FunctionBody := fun args _ =>
  moveBy args fun c amount => c.withLightness (c.lightness + amount)

/-- A color with its lightness decreased. -/
def darken : FunctionBody := fun args _ =>
  moveBy args fun c amount => c.withLightness (c.lightness - amount)

/-- A color with its hue turned. -/
def hueRotate : FunctionBody := fun args _ => do
  let color ← args.color 0 "color"
  let text ← args.required 1 "degrees"
  let angle ← Arguments.readDegrees text
  let c := Oklch.ofRgba color
  pure (c.withHue (c.hue + angle)).toRgba.toHex

/-- The functions of the family. -/
def table : List CatalogEntry :=
  let entry (name signature description : String) (body : FunctionBody) : CatalogEntry :=
    ⟨⟨name, .color, signature, description⟩, body⟩
  [ entry "tint" "tint(color, amount)" "Mix toward white in OKLab" tint,
    entry "shade" "shade(color, amount)" "Mix toward black in OKLab" shade,
    entry "mix" "mix(a, b, ratio=50%)" "Interpolate two colors in OKLab" mix,
    entry "adjust"
      "adjust(color, channel, delta) | adjust(color, \x7b lightness, chroma, hue \x7d)"
      "Shift OKLCH lightness, chroma or hue" adjust,
    entry "alpha" "alpha(color, opacity)" "Set opacity, returns rgba()" alpha,
    entry "complement" "complement(color)" "Rotate hue by 180 degrees" complement,
    entry "saturate" "saturate(color, amount)" "Scale chroma up by amount" saturate,
    entry "desaturate" "desaturate(color, amount)" "Scale chroma down by amount" desaturate,
    entry "invert" "invert(color)" "Invert lightness and opponent axes in OKLab" invert,
    entry "grayscale" "grayscale(color)" "Drop all chroma" grayscale,
    entry "darkMode" "darkMode(color)" "Mirror lightness, keep hue and chroma" darkMode,
    entry "colorScale" "colorScale(color, step)" "Palette step 50-950 from a base color" colorScale,
    entry "lighten" "lighten(color, amount)" "Raise OKLCH lightness" lighten,
    entry "darken" "darken(color, amount)" "Lower OKLCH lightness" darken,
    entry "hueRotate" "hueRotate(color, degrees)" "Rotate OKLCH hue" hueRotate ]

end DesignTokens.ColorFunctions
