/-!
# Doubles as scaled integers

A finite double is a sign and a magnitude `mantissa * 2 ^ exponent`. This module takes doubles apart
and puts them together exactly, and on that footing defines the operations that go through whole
numbers: rounding, remainders, whole powers. Sums, products and quotients are those of `Float`.
-/

namespace DesignTokens.Binary64

/-- What a double stands for. -/
inductive View where
  | nan
  | infinite (negative : Bool)
  | finite (negative : Bool) (mantissa : Nat) (exponent : Int)
  deriving DecidableEq, Repr

/-- The double read off its sixty-four bits. -/
def view (x : Float) : View :=
  let bits := x.toBits.toNat
  let negative := decide (Nat.pow 2 63 ≤ bits)
  let scale : Nat := bits / Nat.pow 2 52 % Nat.pow 2 11
  let fraction : Nat := bits % Nat.pow 2 52
  if scale = 2047 then
    if fraction = 0 then .infinite negative else .nan
  else if scale = 0 then .finite negative fraction (-1074)
  else .finite negative (Nat.pow 2 52 + fraction) ((scale : Int) - 1075)

/-- The double `± mantissa * 2 ^ exponent`, for a mantissa below `2 ^ 53` and an exponent between
`-1074` and `971`. -/
def ofScaled (negative : Bool) (mantissa : Nat) (exponent : Int) : Float :=
  let shift := min (52 - mantissa.log2) (exponent + 1074).toNat
  let mantissa := mantissa <<< shift
  let exponent := exponent - shift
  let magnitude :=
    if mantissa < Nat.pow 2 52 then mantissa
    else (exponent + 1075).toNat * Nat.pow 2 52 + (mantissa - Nat.pow 2 52)
  Float.ofBits (UInt64.ofNat (if negative then Nat.pow 2 63 + magnitude else magnitude))

/-- Applies `whole n d` to the magnitude `n / d` of a double with places after the point, keeping its
sign; a double without such places stays as it is. -/
def mapMagnitude (whole : Bool → Nat → Nat → Nat) (x : Float) : Float :=
  match view x with
  | .finite negative mantissa exponent =>
    if 0 ≤ exponent then x
    else ofScaled negative (whole negative mantissa (Nat.pow 2 (-exponent).toNat)) 0
  | _ => x

/-- The nearest whole number; halves go away from zero. -/
def round (x : Float) : Float := mapMagnitude (fun _ n d => (2 * n + d) / (2 * d)) x

/-- The largest whole number that is not above `x`. -/
def floor (x : Float) : Float :=
  mapMagnitude (fun negative n d => if negative then (n + d - 1) / d else n / d) x

/-- The smallest whole number that is not below `x`. -/
def ceil (x : Float) : Float :=
  mapMagnitude (fun negative n d => if negative then n / d else (n + d - 1) / d) x

/-- Whether a double is a whole number. -/
def isWhole (x : Float) : Bool :=
  match view x with
  | .finite _ mantissa exponent => 0 ≤ exponent || mantissa % Nat.pow 2 (-exponent).toNat == 0
  | _ => false

/-- The double that is not a number. -/
def nan : Float := Float.ofBits 0x7ff8000000000000

/-- The remainder of `x / y` with the quotient cut toward zero: exact, with the sign of `x`. -/
def remainder (x y : Float) : Float :=
  match view x, view y with
  | .finite negative m e, .finite _ n f =>
    if n = 0 then nan
    else
      let scale := min e f
      ofScaled negative (m <<< (e - scale).toNat % n <<< (f - scale).toNat) scale
  | .finite .., .infinite _ => x
  | _, _ => nan

/-- The remainder of `x / y` brought to `0` or above by adding `|y|` once. -/
def wrap (x y : Float) : Float :=
  let r := remainder x y
  if r < 0 then r + y.abs else r

/-- `base` to a natural power by repeated squaring, with the lowest bits of the exponent first. -/
def naturalPower (base : Float) (n : Nat) : Float :=
  go base n 1
where
  /-- Multiplies `acc` by the powers `base ^ 2 ^ i` whose bit is set in the exponent. -/
  go (base : Float) (n : Nat) (acc : Float) : Float :=
    let acc := if n % 2 = 1 then acc * base else acc
    if n / 2 = 0 then acc else go (base * base) (n / 2) acc
  termination_by n

/-- `base` to a whole power; a negative power is the inverse of the natural one. -/
def wholePower (base : Float) (n : Int) : Float :=
  if n < 0 then 1 / naturalPower base n.natAbs else naturalPower base n.natAbs

/-- `x` brought into `low` to `high`; a double that is not a number stays one. -/
def clamp (x low high : Float) : Float :=
  let x := if x < low then low else x
  if x > high then high else x

/-- The larger of two doubles, passing over one that is not a number. -/
def larger (x y : Float) : Float := if x < y || x.isNaN then y else x

/-- Half a turn in radians. -/
def pi : Float := 3.141592653589793

/-- An angle in radians as degrees. -/
def toDegrees (x : Float) : Float := x * (180 / pi)

/-- An angle in degrees as radians. -/
def toRadians (x : Float) : Float := x * (pi / 180)

end DesignTokens.Binary64
