import DesignTokens.Catalog.Basic

/-!
# The math functions

Arithmetic on dimensions. Two operands are brought to the unit of the first one before they meet; a
number without a unit takes on the other unit. Lengths convert through the base font size, and any
other pair of units is refused. What is computed is written with the places of the settings.
-/

namespace DesignTokens.MathFunctions

/-- What a math function computes from its arguments. -/
abbrev Computation := Arguments → Settings → Except FunctionError Dimension

/-- The function that writes what is computed. -/
def written (compute : Computation) : FunctionBody := fun args settings => do
  let result ← compute args settings
  pure (settings.format result.value result.unit)

/-- Two numbers in one unit. -/
structure Pair where
  first : Float
  second : Float
  unit : String
  deriving DecidableEq

/-- Two dimensions in the unit of the first one, or in the unit of the second one when the first has
none. -/
def align (settings : Settings) (a b : Dimension) : Except FunctionError Pair :=
  if a.unit = b.unit then .ok ⟨a.value, b.value, a.unit⟩
  else if a.isUnitless then .ok ⟨a.value, b.value, b.unit⟩
  else if b.isUnitless then .ok ⟨a.value, b.value, a.unit⟩
  else
    match b.convert? a.unit settings.baseFontSize with
    | some b => .ok ⟨a.value, b.value, a.unit⟩
    | none => .error (.incompatibleUnits a.label b.label)

/-- The only argument. -/
def unary (args : Arguments) : Except FunctionError Dimension := do
  args.atMost 1
  args.dimension 0 "value"

/-- The two arguments. -/
def binary (args : Arguments) : Except FunctionError (Dimension × Dimension) := do
  args.atMost 2
  let a ← args.dimension 0 "a"
  let b ← args.dimension 1 "b"
  pure (a, b)

/-- The sum of two dimensions. -/
def add : Computation := fun args settings => do
  let (a, b) ← binary args
  let p ← align settings a b
  pure ⟨p.first + p.second, p.unit⟩

/-- The difference of two dimensions. -/
def subtract : Computation := fun args settings => do
  let (a, b) ← binary args
  let p ← align settings a b
  pure ⟨p.first - p.second, p.unit⟩

/-- The product of two dimensions, at most one of which has a unit. -/
def multiply : Computation := fun args _ => do
  let (value, factor) ← binary args
  if factor.isUnitless then pure ⟨value.value * factor.value, value.unit⟩
  else if value.isUnitless then pure ⟨value.value * factor.value, factor.unit⟩
  else .error (.incompatibleUnits value.label factor.label)

/-- The quotient of two dimensions; of two with units it is a number without one. -/
def divide : Computation := fun args settings => do
  let (value, divisor) ← binary args
  if divisor.value == 0 then .error (.divisionByZero "divide")
  else if divisor.isUnitless then pure ⟨value.value / divisor.value, value.unit⟩
  else if value.isUnitless then .error (.incompatibleUnits value.label divisor.label)
  else do
    let p ← align settings value divisor
    pure (.unitless (p.first / p.second))

/-- The remainder of a division, with the sign of the first operand. -/
def mod : Computation := fun args settings => do
  let (a, b) ← binary args
  if b.value == 0 then .error (.divisionByZero "mod")
  else do
    let p ← align settings a b
    pure ⟨Binary64.remainder p.first p.second, p.unit⟩

/-- The first argument with `whole` applied at the place after the point that the second one gives. -/
def roundWith (whole : Float → Float) : Computation := fun args settings => do
  args.atMost 2
  let value ← args.dimension 0 "value"
  let places ← args.orElse 1 0 Arguments.readNumber
  if 0 ≤ places && places ≤ Float.ofNat settings.precision && Binary64.isWhole places then
    let factor := Binary64.naturalPower 10 places.toUInt32.toNat
    pure ⟨whole (value.value * factor) / factor, value.unit⟩
  else
    .error (.invalidArgument "precision"
      ("must be a whole number between 0 and " ++ toString settings.precision))

/-- The nearest dimension with some places after the point; halves go away from zero. -/
def round : Computation := roundWith Binary64.round

/-- The largest dimension with some places after the point that is not above a dimension. -/
def floor : Computation := roundWith Binary64.floor

/-- The smallest dimension with some places after the point that is not below a dimension. -/
def ceil : Computation := roundWith Binary64.ceil

/-- The better one of the best operand so far and another operand, in one unit. -/
def preferred (settings : Settings) (better : Float → Float → Bool) (best : Dimension)
    (text : String) : Except FunctionError Dimension := do
  let other ← Arguments.readDimension text
  let p ← align settings best other
  pure (.of (if better p.second p.first then p.second else p.first) p.unit)

/-- The best operand, in the first unit among the operands. -/
def extreme (better : Float → Float → Bool) : Computation := fun args settings => do
  let first ← args.dimension 0 "a"
  (args.texts.drop 1).foldlM (preferred settings better) first

/-- The smallest operand. -/
def min : Computation := extreme fun a b => a < b

/-- The largest operand. -/
def max : Computation := extreme fun a b => a > b

/-- A dimension brought between two others. -/
def clamp : Computation := fun args settings => do
  args.atMost 3
  let value ← args.dimension 0 "value"
  let low ← args.dimension 1 "min"
  let high ← args.dimension 2 "max"
  let p ← align settings value low
  let q ← align settings (.of p.first p.unit) high
  if p.second > q.second then
    .error (.invalidArgument "min" (low.label ++ " is greater than max " ++ high.label))
  else pure ⟨Binary64.clamp p.first p.second q.second, p.unit⟩

/-- A dimension in another unit. -/
def convert : Computation := fun args settings => do
  args.atMost 2
  let value ← args.dimension 0 "value"
  let unit ← args.required 1 "unit"
  match value.convert? unit settings.baseFontSize with
  | some converted => pure converted
  | none => .error (.incompatibleUnits value.label unit)

/-- A dimension without its sign. -/
def abs : Computation := fun args _ => do
  let value ← unary args
  pure ⟨value.value.abs, value.unit⟩

/-- A dimension with the other sign. -/
def negate : Computation := fun args _ => do
  let value ← unary args
  pure ⟨-value.value, value.unit⟩

/-- A part as a percentage of a whole. -/
def percent : Computation := fun args settings => do
  args.atMost 2
  let part ← args.dimension 0 "part"
  let whole ← args.dimension 1 "whole"
  if whole.value == 0 then .error (.divisionByZero "percent")
  else do
    let p ← align settings part whole
    pure ⟨p.first / p.second * 100, "%"⟩

/-- The functions of the family, with what they compute. -/
def functions : List (FunctionInfo × Computation) :=
  let entry (name signature description : String) (compute : Computation) :=
    (⟨name, .math, signature, description⟩, compute)
  [ entry "multiply" "multiply(value, factor)" "Scale a dimension" multiply,
    entry "divide" "divide(value, divisor)" "Divide a dimension" divide,
    entry "add" "add(a, b)" "Sum in the left operand's unit" add,
    entry "subtract" "subtract(a, b)" "Difference in the left operand's unit" subtract,
    entry "round" "round(value, precision=0)" "Round to a number of decimals" round,
    entry "floor" "floor(value, precision=0)" "Round down" floor,
    entry "ceil" "ceil(value, precision=0)" "Round up" ceil,
    entry "min" "min(a, b, ...)" "Smallest operand" min,
    entry "max" "max(a, b, ...)" "Largest operand" max,
    entry "clamp" "clamp(value, min, max)" "Constrain a value to a range" clamp,
    entry "convert" "convert(value, unit)" "Convert between px, rem, em and pt" convert,
    entry "mod" "mod(a, b)" "Remainder of a / b" mod,
    entry "abs" "abs(value)" "Absolute value" abs,
    entry "negate" "negate(value)" "Flip the sign" negate,
    entry "percent" "percent(part, whole)" "part / whole as a percentage" percent ]

/-- The functions of the family as they are called. -/
def table : List CatalogEntry := functions.map fun (info, compute) => ⟨info, written compute⟩

end DesignTokens.MathFunctions
