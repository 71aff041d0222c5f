import DesignTokens.Decimal.Fixed
import DesignTokens.Decimal.Numeral

/-!
# Dimensions

A dimension is a finite number with an optional unit: `16px`, `1.5rem`, `20%`, `0.5`. Units are kept in
lower case. The lengths `px`, `rem`, `em` and `pt` convert into one another through the base font size
and the ratio of a point to a pixel; a number without a unit takes on any unit.
-/

namespace DesignTokens

open Text

/-- A number with a unit; the unit of a bare number is empty. -/
structure Dimension where
  value : Float
  unit : String
  deriving DecidableEq

namespace Dimension

/-- The base font size in pixels when nothing else is set. -/
def defaultBase : Float := 16

/-- Pixels in a point. -/
def pxPerPt : Float := 4 / 3

/-- The places after the point in a dimension that stands in a message. -/
def messagePlaces : Nat := 4

/-- A number with a unit in any letter case. -/
def of (value : Float) (unit : String) : Dimension := ⟨value, unit.toLower⟩

/-- A number without a unit. -/
def unitless (value : Float) : Dimension := ⟨value, ""⟩

def isUnitless (d : Dimension) : Bool := d.unit.isEmpty

/-- Whether a unit converts through the base font size. -/
def isLengthUnit (unit : String) : Bool :=
  unit == "px" || unit == "rem" || unit == "em" || unit == "pt"

def isLength (d : Dimension) : Bool := isLengthUnit d.unit

/-- The value in pixels of a length. -/
def toPx? (d : Dimension) (base : Float) : Option Float :=
  if d.unit = "px" then some d.value
  else if d.unit = "rem" || d.unit = "em" then some (d.value * base)
  else if d.unit = "pt" then some (d.value * pxPerPt)
  else none

/-- A number of pixels in the unit of a length. -/
def ofPx? (px : Float) (unit : String) (base : Float) : Option Float :=
  if unit = "px" then some px
  else if unit = "rem" || unit = "em" then some (px / base)
  else if unit = "pt" then some (px / pxPerPt)
  else none

/-- The dimension in another unit. The same unit and a bare number convert as they are, and
otherwise both units have to be lengths. -/
def convert? (d : Dimension) (unit : String) (base : Float) : Option Dimension :=
  let target := unit.toLower
  if d.unit = target || d.isUnitless then some ⟨d.value, target⟩
  else do
    let px ← d.toPx? base
    let value ← ofPx? px target base
    some ⟨value, target⟩

/-- The text of a dimension with at most `places` digits after the point. -/
def format (d : Dimension) (places : Nat) : String := Decimal.formatNumber d.value places ++ d.unit

/-- The text of a dimension in a message. -/
def label (d : Dimension) : String := d.format messagePlaces

/-- Whether a text can follow the number of a dimension: nothing, letters, or a percent sign. -/
def isUnitText (unit : List Char) : Bool := unit.all isLetter || unit = ['%']

/-- The dimension that a text writes, blanks around it apart. -/
def parse? (text : String) : Option Dimension :=
  match Decimal.Numeral.scan (trim text.toList) with
  | some (n, unit) =>
    let value := n.toFloat
    if isUnitText unit && value.isFinite then some (of value (String.ofList unit)) else none
  | none => none

/-- The dimension that a text writes; any other text is the bare number it reads as, or zero. -/
def parse (text : String) : Dimension :=
  match parse? text with
  | some d => d
  | none =>
    match Decimal.readFloat? (trim text.toList) with
    | some x => unitless (if x.isFinite then x else 0)
    | none => unitless 0

end Dimension

end DesignTokens
