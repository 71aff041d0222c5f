import DesignTokens.Catalog.Basic

/-!
# The typography functions

Modular scales multiply a size by whole or broken powers of a ratio. Fluid sizes grow linearly between
two viewports and are written as `clamp(low, slope + offset, high)`. Lengths are brought to pixels
first; a number without a unit counts as pixels.
-/

namespace DesignTokens.TypographyFunctions

/-- The ratios that have a name. -/
def namedRatios : List (String × Float) :=
  [ ("minorSecond", 1.067), ("majorSecond", 1.125), ("minorThird", 1.2), ("majorThird", 1.25),
    ("perfectFourth", 1.333), ("augmentedFourth", 1.414), ("perfectFifth", 1.5),
    ("goldenRatio", 1.618), ("majorSixth", 1.667), ("minorSeventh", 1.778),
    ("majorSeventh", 1.875), ("octave", 2) ]

/-- The steps of a type scale. -/
def typeSteps : List (String × Int) :=
  [ ("xs", -2), ("sm", -1), ("base", 0), ("md", 0), ("lg", 1), ("xl", 2), ("2xl", 3), ("3xl", 4),
    ("4xl", 5), ("5xl", 6) ]

/-- What stands under a name in any letter case. -/
def named? {α : Type} (entries : List (String × α)) (name : String) : Option α :=
  (entries.find? fun (key, _) => Text.sameLetters key name).map (·.2)

/-- The ratio of a name, or the positive number that a text writes. -/
def readRatio (text : String) : Except FunctionError Float :=
  match named? namedRatios text with
  | some ratio => .ok ratio
  | none =>
    match Decimal.readFloat? text.toList with
    | some ratio =>
      if ratio.isFinite && 0 < ratio then .ok ratio else .error (.unknownRatio text)
    | none => .error (.unknownRatio text)

/-- A dimension in pixels. -/
def lengthPx (settings : Settings) (d : Dimension) : Except FunctionError Float :=
  if d.isUnitless then .ok d.value
  else
    match d.toPx? settings.baseFontSize with
    | some px => .ok px
    | none => .error (.invalidDimension (Decimal.messageText d.value ++ d.unit))

/-- The argument at a position in pixels. -/
def argumentPx (args : Arguments) (settings : Settings) (position : Nat) (name : String) :
    Except FunctionError Float := do
  lengthPx settings (← args.dimension position name)

/-- A viewport in pixels, given by an option or else by the argument at a position before the options,
if there is one. -/
def viewport (args : Arguments) (settings : Settings) (options : KeyedList Json) (key : String)
    (position : Nat) (default : Float) : Except FunctionError Float :=
  match KeyedList.get? options key with
  | some value => do lengthPx settings (← Arguments.dimensionOfOption value)
  | none =>
    if args.positionalCount ≤ position then .ok default
    else
      args.orElse position default fun text => do
        lengthPx settings (← Arguments.readDimension text)

/-- The smallest and the largest viewport, given by options or by the arguments from a position on. -/
def viewports (args : Arguments) (settings : Settings) (first : Nat) :
    Except FunctionError (Float × Float) := do
  let options := args.options?.getD []
  let low ← viewport args settings options "minViewport" first settings.minViewport
  let high ← viewport args settings options "maxViewport" (first + 1) settings.maxViewport
  if high ≤ low then
    .error (.invalidArgument "maxViewport"
      ("must exceed minViewport (" ++ Decimal.messageText low ++ "px), got " ++
        Decimal.messageText high ++ "px"))
  else .ok (low, high)

/-- The size that is `start` pixels at the smallest viewport and `finish` pixels at the largest one,
written in a unit of `unitPx` pixels. -/
def fluidClamp (settings : Settings) (start finish : Float) (viewports : Float × Float)
    (unit : String) (unitPx : Float) : String :=
  let (least, most) := viewports
  let slope := (finish - start) / (most - least)
  let intercept := (start - slope * least) / unitPx
  let (low, high) := if start ≤ finish then (start, finish) else (finish, start)
  let offset := settings.format intercept.abs unit
  let sign := if intercept < 0 && offset ≠ "0" ++ unit then "-" else "+"
  "clamp(" ++ settings.format (low / unitPx) unit ++ ", " ++ settings.format (slope * 100) "vw" ++
    " " ++ sign ++ " " ++ offset ++ ", " ++ settings.format (high / unitPx) unit ++ ")"

/-- A font size that grows with the viewport, in `rem`. -/
def fluidType : FunctionBody := fun args settings => do
  args.atMost 4
  let start ← argumentPx args settings 0 "min"
  let finish ← argumentPx args settings 1 "max"
  let bounds ← viewports args settings 2
  pure (fluidClamp settings start finish bounds "rem" settings.baseFontSize)

/-- The unit that a fluid space is written in, and its pixels. -/
def spaceUnit (settings : Settings) (unit : String) : String × Float :=
  if unit = "rem" || unit = "em" then (unit, settings.baseFontSize) else ("px", 1)

/-- A distance that grows with the viewport, in the unit of its first argument. -/
def fluidSpace : FunctionBody := fun args settings => do
  args.atMost 4
  let least ← args.dimension 0 "min"
  let most ← args.dimension 1 "max"
  let start ← lengthPx settings least
  let finish ← lengthPx settings most
  let bounds ← viewports args settings 2
  let (unit, unitPx) := spaceUnit settings least.unit
  pure (fluidClamp settings start finish bounds unit unitPx)

/-- The ratio at a position, or else the one that is set. -/
def ratioAt (args : Arguments) (settings : Settings) (position : Nat) :
    Except FunctionError Float :=
  readRatio ((args.optional? position).getD settings.defaultRatio)

/-- A base times a power of a ratio. -/
def modularScale : FunctionBody := fun args settings => do
  args.atMost 3
  let base ← args.dimension 0 "base"
  let step ← args.number 1 "step"
  let ratio ← ratioAt args settings 2
  pure (settings.format (base.value * Float.pow ratio step) base.unit)

/-- A step of a type scale, given by its name. -/
def typeScale : FunctionBody := fun args settings => do
  args.atMost 3
  let name ← args.required 0 "step"
  match named? typeSteps name with
  | none => .error (.unknownStep name)
  | some step => do
    let base ← args.orElse 1 (.of 1 "rem") Arguments.readDimension
    let ratio ← ratioAt args settings 2
    pure (settings.format (base.value * Binary64.wholePower ratio step) base.unit)

/-- The height of a line relative to its font size, at a whole number of steps of a grid. -/
def lineHeight : FunctionBody := fun args settings => do
  args.atMost 3
  let font ← argumentPx args settings 0 "fontSize"
  if font ≤ 0 then .error (.invalidArgument "fontSize" "must be positive")
  else do
    let ratio ← args.orElse 1 1.5 Arguments.readNumber
    let grid ← args.orElse 2 4 fun text => do lengthPx settings (← Arguments.readDimension text)
    if grid ≤ 0 then .error (.invalidArgument "grid" "must be positive")
    else
      let box := Binary64.larger (Binary64.round (font * ratio / grid) * grid) grid
      pure (settings.format (box / font) "")

/-- The width of a line with some characters of half the font size, in `rem`. -/
def optimalMeasure : FunctionBody := fun args settings => do
  args.atMost 2
  let font ← argumentPx args settings 0 "fontSize"
  let chars ← args.orElse 1 66 Arguments.readNumber
  pure (settings.format (chars * 0.5 * font / settings.baseFontSize) "rem")

/-- A font size that grows with the viewport by a ratio, in `rem`. -/
def responsiveType : FunctionBody := fun args settings => do
  args.atMost 4
  let base ← argumentPx args settings 0 "base"
  let ratio ← if 1 < args.positionalCount then args.orElse 1 1.25 readRatio else .ok 1.25
  let bounds ← viewports args settings 2
  pure (fluidClamp settings base (base * ratio) bounds "rem" settings.baseFontSize)

/-- The tracking of a font size, in `em` and at most a twentieth. -/
def letterSpacing : FunctionBody := fun args settings => do
  args.atMost 1
  let font ← argumentPx args settings 0 "fontSize"
  pure (settings.format (Binary64.clamp ((16 - font) * 0.001) (-0.05) 0.05) "em")

/-- The functions of the family. -/
def table : List CatalogEntry :=
  let entry (name signature description : String) (body : FunctionBody) : CatalogEntry :=
    ⟨⟨name, .typography, signature, description⟩, body⟩
  [ entry "fluidType" "fluidType(min, max, minViewport=320px, maxViewport=1280px)"
      "Viewport-interpolated font size as a rem clamp()" fluidType,
    entry "modularScale" "modularScale(base, step, ratio=majorThird)" "base x ratio^step"
      modularScale,
    entry "typeScale" "typeScale(step, base=1rem, ratio=majorThird)"
      "Named step (xs..5xl) on a modular scale" typeScale,
    entry "fluidSpace" "fluidSpace(min, max, minViewport=320px, maxViewport=1280px)"
      "Viewport-interpolated spacing in the input unit" fluidSpace,
    entry "lineHeight" "lineHeight(fontSize, ratio=1.5, grid=4px)"
      "Unitless line height snapped to a baseline grid" lineHeight,
    entry "optimalMeasure" "optimalMeasure(fontSize, chars=66)" "Comfortable line length in rem"
      optimalMeasure,
    entry "responsiveType" "responsiveType(base, ratio=1.25, minViewport=320px, maxViewport=1280px)"
      "fluidType from base to base x ratio" responsiveType,
    entry "letterSpacing" "letterSpacing(fontSize)" "Optical tracking in em for a font size"
      letterSpacing ]

end DesignTokens.TypographyFunctions
