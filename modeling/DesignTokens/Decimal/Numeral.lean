import DesignTokens.Binary64
import DesignTokens.Text.Basic

/-!
# Decimal numerals

A numeral is an optional sign, digits with an optional point and at least one digit, and an optional
exponent. Every number in a token value, a setting or a color notation is written this way, so there
is one scanner for it. What may follow a numeral (a unit, a percent sign, nothing) is up to the
reader that uses the scanner.

A numeral stands for the double nearest to it.
-/

namespace DesignTokens.Decimal

open Text

/-- A decimal numeral taken apart. -/
structure Numeral where
  negative : Bool
  /-- The digits before the point. -/
  whole : List Char
  /-- The digits after the point. -/
  fraction : List Char
  exponent : Int
  deriving DecidableEq, Repr

/-- The natural number written by some digits. -/
def digitsValue (digits : List Char) : Nat :=
  digits.foldl (fun value c => 10 * value + (c.toNat - 48)) 0

/-- Whether a text starts with a minus sign, and the text after its sign, if it has one. -/
def takeSign : List Char → Bool × List Char
  | '-' :: rest => (true, rest)
  | '+' :: rest => (false, rest)
  | s => (false, s)

/-- The double nearest to `± digits * 10 ^ exponent`. A decimal that is beyond the range of doubles, or
below half of the smallest one, is told by its exponent alone. -/
def scaled (negative : Bool) (digits : Nat) (exponent : Int) : Float :=
  let magnitude :=
    if digits = 0 then 0
    else if 310 < exponent then 1 / 0
    else if exponent + digits.log2 < -400 then 0
    else Float.ofScientific digits (exponent < 0) exponent.natAbs
  if negative then -magnitude else magnitude

namespace Numeral

/-- The digits before and after the point, and the text that follows them. -/
def scanDigits (s : List Char) : Option (List Char × List Char × List Char) :=
  let (whole, s) := cutWhile isDigit s
  let (fraction, s) :=
    match s with
    | '.' :: rest => if whole.isEmpty && !(rest.head?.any isDigit) then ([], s) else cutWhile isDigit rest
    | _ => ([], s)
  if whole.isEmpty && fraction.isEmpty then none else some (whole, fraction, s)

/-- The exponent at the start of a text; a letter `e` without digits after it is not an exponent. -/
def scanExponent (s : List Char) : Int × List Char :=
  match s with
  | c :: rest =>
    if c = 'e' || c = 'E' then
      let (negative, rest) := takeSign rest
      let (digits, rest) := cutWhile isDigit rest
      if digits.isEmpty then (0, s)
      else (if negative then -(digitsValue digits) else digitsValue digits, rest)
    else (0, s)
  | [] => (0, [])

/-- The longest numeral at the start of a text, and what follows it. -/
def scan (s : List Char) : Option (Numeral × List Char) := do
  let (negative, s) := takeSign s
  let (whole, fraction, s) ← scanDigits s
  let (exponent, s) := scanExponent s
  some (⟨negative, whole, fraction, exponent⟩, s)

/-- The double nearest to a numeral. -/
def toFloat (n : Numeral) : Float :=
  scaled n.negative (digitsValue (n.whole ++ n.fraction)) (n.exponent - n.fraction.length)

end Numeral

/-- The double that a whole text writes: a numeral, or one of the names `inf`, `infinity` and `nan`
in any letter case with an optional sign. -/
def readFloat? (s : List Char) : Option Float :=
  match Numeral.scan s with
  | some (n, []) => some n.toFloat
  | _ =>
    let (negative, name) := takeSign s
    let infinity : Float := 1 / 0
    let name := name.map Char.toLower
    if name = "inf".toList || name = "infinity".toList then
      some (if negative then -infinity else infinity)
    else if name = "nan".toList then some Binary64.nan
    else none

/-- The natural number up to `limit` that a whole text writes, with an optional plus sign. -/
def readNat? (limit : Nat) (s : List Char) : Option Nat :=
  let digits :=
    match s with
    | '+' :: rest => rest
    | _ => s
  if digits.isEmpty || !digits.all isDigit then none
  else
    let value := digitsValue digits
    if value ≤ limit then some value else none

/-- The largest thirty-two bit natural number, the range of a precision and of a palette step. -/
def maxWord32 : Nat := 4294967295

end DesignTokens.Decimal
