import DesignTokens.Decimal.Numeral
import DesignTokens.Toml.Basic

/-!
# TOML numbers, dates and times

Numbers, dates and times are told apart by the whole run of characters they are written with. Digits
may be grouped by single underscores; a decimal number does not start with a zero that means nothing.
Dates have to exist, and a date and a time may be joined by a blank.
-/

namespace DesignTokens.Toml

open Text

/-- The characters that numbers, dates and times are written with. -/
def isScalarChar (c : Char) : Bool :=
  c.isAlphanum || c = '+' || c = '-' || c = '_' || c = '.' || c = ':'

/-- The digits of a text of digits, in which single underscores may stand between digits. -/
def ungrouped? (isDigit : Char → Bool) (s : List Char) : Option (List Char) :=
  let groups := splitAt '_' s
  if groups.all fun group => !group.isEmpty && group.all isDigit then some groups.flatten else none

/-- The digits of a decimal number without a sign. -/
def decimalDigits? (s : List Char) : Option (List Char) :=
  match ungrouped? isDigit s with
  | some ('0' :: _ :: _) => none
  | digits => digits

/-- The natural number that digits of a base write. -/
def baseValue (base : Nat) (digits : List Char) : Nat :=
  digits.foldl (fun value c => base * value + hexValue c) 0

/-- An integer that fits into sixty-four bits. -/
def word? (n : Int) : Option Value :=
  if -(Nat.pow 2 63 : Int) ≤ n ∧ n < Nat.pow 2 63 then some (.integer n) else none

/-- The value of digits in a base. -/
def based? (base : Nat) (isDigit : Char → Bool) (s : List Char) : Option Value :=
  (ungrouped? isDigit s).bind fun digits => word? (baseValue base digits)

/-- The value of an exponent: an optional sign and digits. -/
def exponent? (s : List Char) : Option Int :=
  let (negative, s) := Decimal.takeSign s
  (ungrouped? isDigit s).map fun digits =>
    let value : Int := Decimal.digitsValue digits
    if negative then -value else value

/-- A float with the given digits; one beyond all doubles is refused unless it is negative. -/
def float? (negative : Bool) (whole fraction : List Char) (exponent : Int) : Option Value :=
  let x := Decimal.scaled negative (Decimal.digitsValue (whole ++ fraction))
    (exponent - fraction.length)
  if x.isInf && !negative then none else some (.float x)

/-- The value of a decimal number without its sign. -/
def decimal? (negative : Bool) (s : List Char) : Option Value :=
  let (whole, rest) := cutWhile (fun c => isDigit c || c = '_') s
  match decimalDigits? whole with
  | none => none
  | some whole =>
    match rest with
    | [] =>
      let n : Int := Decimal.digitsValue whole
      word? (if negative then -n else n)
    | '.' :: rest =>
      let (fraction, rest) := cutWhile (fun c => isDigit c || c = '_') rest
      match ungrouped? isDigit fraction, rest with
      | none, _ => none
      | some fraction, [] => float? negative whole fraction 0
      | some fraction, c :: rest =>
        if c = 'e' || c = 'E' then (exponent? rest).bind (float? negative whole fraction) else none
    | c :: rest =>
      if c = 'e' || c = 'E' then (exponent? rest).bind (float? negative whole []) else none

/-- The value of a number. -/
def number? (s : List Char) : Option Value :=
  match s with
  | '0' :: 'x' :: digits => based? 16 isHexDigit digits
  | '0' :: 'o' :: digits => based? 8 (fun c => '0' ≤ c && c ≤ '7') digits
  | '0' :: 'b' :: digits => based? 2 (fun c => c = '0' || c = '1') digits
  | _ =>
    let (negative, s) := Decimal.takeSign s
    if s = "inf".toList then some (.float (if negative then -(1 / 0) else 1 / 0))
    else if s = "nan".toList then some (.float Binary64.nan)
    else decimal? negative s

/-- A number of exactly `width` digits between two bounds, and what follows it. -/
def field? (width low high : Nat) (s : List Char) : Option (Nat × List Char) :=
  let digits := s.take width
  let value := Decimal.digitsValue digits
  if digits.length = width && digits.all isDigit && low ≤ value && value ≤ high then
    some (value, s.drop width)
  else none

/-- The number of days in a month. -/
def daysIn (year month : Nat) : Nat :=
  if month = 2 then
    if year % 4 = 0 && (year % 100 ≠ 0 || year % 400 = 0) then 29 else 28
  else if month = 4 || month = 6 || month = 9 || month = 11 then 30
  else 31

/-- What follows the date `yyyy-mm-dd` that a text starts with. -/
def afterDate? (s : List Char) : Option (List Char) := do
  let (year, s) ← field? 4 0 9999 s
  let s ← afterStart? ['-'] s
  let (month, s) ← field? 2 1 12 s
  let s ← afterStart? ['-'] s
  let (_, s) ← field? 2 1 (daysIn year month) s
  some s

/-- What follows the time `hh:mm:ss` with optional decimals that a text starts with. -/
def afterTime? (s : List Char) : Option (List Char) := do
  let (_, s) ← field? 2 0 23 s
  let s ← afterStart? [':'] s
  let (_, s) ← field? 2 0 59 s
  let s ← afterStart? [':'] s
  let (_, s) ← field? 2 0 60 s
  match s with
  | '.' :: rest =>
    let (decimals, rest) := cutWhile isDigit rest
    if decimals.isEmpty then none else some rest
  | _ => some s

/-- Whether a text is the offset of a time: nothing, `Z`, or hours and minutes with a sign. -/
def isOffset (s : List Char) : Bool :=
  match s with
  | [] => true
  | ['Z'] => true
  | ['z'] => true
  | sign :: rest =>
    (sign = '+' || sign = '-') &&
      ((do
        let (_, rest) ← field? 2 0 23 rest
        let rest ← afterStart? [':'] rest
        field? 2 0 59 rest) matches some (_, []))

/-- Whether a text is a date, a time, or a date and a time with an optional offset. -/
def isMoment (s : List Char) : Bool :=
  match afterDate? s with
  | some [] => true
  | some (c :: rest) =>
    (c = 'T' || c = 't' || c = ' ') &&
      (match afterTime? rest with
      | some offset => isOffset offset
      | none => false)
  | none => afterTime? s matches some []

/-- How many characters belong to the number, date or time at the start of a text. A blank belongs to
it when it stands between a date and a time. -/
def scalarLength (s : List Char) : Nat :=
  let first := s.takeWhile isScalarChar
  match afterDate? first, s.drop first.length with
  | some [], ' ' :: a :: b :: ':' :: rest =>
    if isDigit a && isDigit b then first.length + 4 + (rest.takeWhile isScalarChar).length
    else first.length
  | _, _ => first.length

/-- The value of a number, a date or a time. -/
def scalar? (s : List Char) : Option Value :=
  if isMoment s then some (.moment (String.ofList s)) else number? s

end DesignTokens.Toml
