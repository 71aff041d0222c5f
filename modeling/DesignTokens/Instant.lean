import DesignTokens.Decimal.Fixed

/-!
# Instants

A point in time in milliseconds since the start of 1970, and its text as a date and a time of day. The
days are counted in eras of four hundred years that begin in March, so that a leap day ends its year.
-/

namespace DesignTokens

/-- A point in time. -/
structure Instant where
  milliseconds : Nat
  deriving DecidableEq, Repr

namespace Instant

/-- The whole seconds since the start of 1970. -/
def seconds (i : Instant) : Nat := i.milliseconds / 1000

/-- The year, the month and the day that begins some days after the start of 1970. -/
def date (days : Nat) : Nat × Nat × Nat :=
  let days := days + 719468
  let era := days / 146097
  let inEra := days % 146097
  let years := (inEra - inEra / 1460 + inEra / 36524 - inEra / 146096) / 365
  let inYear := inEra - (365 * years + years / 4 - years / 100)
  let march := (5 * inYear + 2) / 153
  let day := inYear - (153 * march + 2) / 5 + 1
  let month := if march < 10 then march + 3 else march - 9
  (era * 400 + years + (if month ≤ 2 then 1 else 0), month, day)

/-- The date and the time of day in universal time. -/
def text (i : Instant) : String :=
  let padded (width n : Nat) := String.ofList (Decimal.paddedDigits width n)
  let (year, month, day) := date (i.seconds / 86400)
  let inDay := i.seconds % 86400
  padded 4 year ++ "-" ++ padded 2 month ++ "-" ++ padded 2 day ++ "T" ++
    padded 2 (inDay / 3600) ++ ":" ++ padded 2 (inDay / 60 % 60) ++ ":" ++
    padded 2 (inDay % 60) ++ "+00:00"

end Instant

end DesignTokens
