import DesignTokens.Decimal.Fixed

/-!
# The shortest digits of a double

Of the decimals that round to a given double, the one with the fewest digits is written, and of
several with as few digits the one nearest to the double. A double rounds from an interval of reals
around it, whose ends belong to it when its mantissa is even. For one digit, two digits, and so on,
the two neighbours of the double on that decimal grid are tried in exact arithmetic; seventeen digits
always suffice.
-/

namespace DesignTokens.Decimal

/-- Which of two equally near decimals is written. -/
inductive Tie where
  /-- The one with an even last digit. -/
  | even
  /-- The larger one. -/
  | up
  deriving DecidableEq, Repr

/-- The positive decimal `significand * 10 ^ exponent`. -/
structure Scaled where
  significand : Nat
  exponent : Int
  deriving DecidableEq, Repr

namespace Scaled

/-- The number of digits. -/
def width (d : Scaled) : Nat := (digits d.significand).length

/-- The exponent of the first digit. -/
def leading (d : Scaled) : Int := d.exponent + d.width - 1

/-- The same decimal without zeros at the end of its digits. -/
def strip (d : Scaled) : Scaled :=
  if h : d.significand ≠ 0 ∧ d.significand % 10 = 0 then strip ⟨d.significand / 10, d.exponent + 1⟩ else d
termination_by d.significand
decreasing_by omega

end Scaled

/-- The exponent of the first decimal digit of the positive quotient `n / d`. -/
def leadingExponent (n d : Nat) : Int :=
  if d ≤ n then ((digits (n / d)).length : Int) - 1
  else
    let inverse := d / n
    let width := (digits inverse).length
    if n * Nat.pow 10 (width - 1) = d then 1 - (width : Int) else -(width : Int)

/-- The shortest decimal of the double `mantissa * 2 ^ exponent`, with the nearest digits. -/
def shortest (tie : Tie) (mantissa : Nat) (exponent : Int) : Scaled :=
  -- Values in units of a quarter of the gap to the next double.
  let quarter := exponent - 2
  let value := 4 * mantissa
  let low := if mantissa = Nat.pow 2 52 ∧ -1074 < exponent then value - 1 else value - 2
  let high := value + 2
  let closed := mantissa % 2 = 0
  let above := Nat.pow 2 quarter.toNat
  let below := Nat.pow 2 (-quarter).toNat
  let lead := leadingExponent (value * above) below
  let grid (more : Nat) : Option Scaled :=
    -- One digit at the leading place and `more` after it.
    let place : Int := lead - more
    -- The double is `num / den` on the grid of `10 ^ place`.
    let up := above * Nat.pow 10 (-place).toNat
    let den := below * Nat.pow 10 place.toNat
    let num := value * up
    let inside (c : Nat) : Bool :=
      if closed then low * up ≤ c * den ∧ c * den ≤ high * up
      else low * up < c * den ∧ c * den < high * up
    let c := num / den
    let down := num - c * den
    let rise := (c + 1) * den - num
    let preferUpper :=
      rise < down || (rise == down && (match tie with | .up => true | .even => c % 2 == 1))
    if inside c && inside (c + 1) then some ⟨if preferUpper then c + 1 else c, place⟩
    else if inside c then some ⟨c, place⟩
    else if inside (c + 1) then some ⟨c + 1, place⟩
    else none
  (((List.range 17).findSome? grid).getD ⟨mantissa, exponent⟩).strip

/-- A decimal written without an exponent. -/
def Scaled.plain (d : Scaled) : List Char :=
  if 0 ≤ d.exponent then digits d.significand ++ List.replicate d.exponent.toNat '0'
  else pointed (-d.exponent).toNat d.significand

/-- A decimal written with one digit before the point and the exponent behind it. -/
def Scaled.scientific (d : Scaled) : List Char :=
  let ds := digits d.significand
  let exponent := d.leading
  ds.take 1 ++ (if ds.length = 1 then [] else '.' :: ds.drop 1) ++
    'e' :: (if exponent < 0 then '-' else '+') :: digits exponent.natAbs

/-- The text of a double in a message: shortest digits, no exponent, no point where none is needed. -/
def messageText (x : Float) : String :=
  match Binary64.view x with
  | .nan => "NaN"
  | .infinite negative => if negative then "-inf" else "inf"
  | .finite negative mantissa exponent =>
    let magnitude := if mantissa = 0 then ['0'] else (shortest .up mantissa exponent).plain
    String.ofList (if negative then '-' :: magnitude else magnitude)

end DesignTokens.Decimal
