import DesignTokens.Binary64

/-!
# Numbers with a fixed count of places

The text of a double with a given number of digits after the point. It is rounded from the exact
value of the double, and a tie goes to the even digit.

`trimmedText` is the form numbers take in every value this library writes: rounded to the places of
the settings, then without the zeros at the end of the fraction, and never `-0`.
-/

namespace DesignTokens.Decimal

/-- The quotient rounded to the nearest natural number; a tie goes to the even one. -/
def roundDiv (n d : Nat) : Nat :=
  let q := n / d
  let r := n % d
  if 2 * r < d then q else if d < 2 * r then q + 1 else q + q % 2

/-- The digits of `mantissa * 2 ^ exponent * 10 ^ places`, rounded to a natural number. -/
def fixedDigits (mantissa : Nat) (exponent : Int) (places : Nat) : Nat :=
  roundDiv (mantissa * Nat.pow 10 places * Nat.pow 2 exponent.toNat) (Nat.pow 2 (-exponent).toNat)

/-- The digits of a natural number. -/
def digits (n : Nat) : List Char := Nat.toDigits 10 n

/-- The digits of a natural number, with zeros in front up to `width` digits. -/
def paddedDigits (width n : Nat) : List Char :=
  let ds := digits n
  List.replicate (width - ds.length) '0' ++ ds

/-- A natural number of units `10 ^ -places` written with a point. -/
def pointed (places n : Nat) : List Char :=
  let ds := paddedDigits (places + 1) n
  if places = 0 then ds
  else ds.take (ds.length - places) ++ '.' :: ds.drop (ds.length - places)

/-- The text of a double with `places` digits after the point. -/
def fixedText (places : Nat) (x : Float) : List Char :=
  match Binary64.view x with
  | .nan => "NaN".toList
  | .infinite negative => if negative then "-inf".toList else "inf".toList
  | .finite negative mantissa exponent =>
    let magnitude := pointed places (fixedDigits mantissa exponent places)
    if negative then '-' :: magnitude else magnitude

/-- A text without the characters equal to `c` at its end. -/
def dropTrailing (c : Char) (s : List Char) : List Char := (s.reverse.dropWhile (· == c)).reverse

/-- The text without the zeros that end its fraction, and without a point that then ends it. -/
def trimFraction (s : List Char) : List Char :=
  if s.contains '.' then dropTrailing '.' (dropTrailing '0' s) else s

/-- The text of a double rounded to `places` digits after the point, in its shortest spelling. -/
def trimmedText (places : Nat) (x : Float) : List Char :=
  match trimFraction (fixedText places x) with
  | ['-', '0'] => ['0']
  | [] => ['0']
  | text => text

/-- `trimmedText` as a string. -/
def formatNumber (x : Float) (places : Nat) : String := String.ofList (trimmedText places x)

end DesignTokens.Decimal
