import DesignTokens.Catalog.FunctionError
import DesignTokens.Color.Notation
import DesignTokens.Expression.ObjectLiteral
import DesignTokens.Json.Printer

/-!
# Reading arguments

A function is given texts. This module reads them as colors, dimensions, plain numbers, angles and
amounts, with the failure that tells what was wrong. An argument may stand in quotes; one that is
absent and one that is empty are the same. The last argument may be an object literal with options.
-/

namespace DesignTokens

/-- The arguments of a call. -/
structure Arguments where
  texts : List String
  deriving DecidableEq, Repr

namespace Arguments

/-- The dimension that a text writes. -/
def readDimension (text : String) : Except FunctionError Dimension :=
  match Dimension.parse? text with
  | some d => .ok d
  | none => .error (.invalidDimension text)

/-- The number that a text writes; it must have no unit. -/
def readNumber (text : String) : Except FunctionError Float :=
  match Dimension.parse? text with
  | some d => if d.isUnitless then .ok d.value else .error (.invalidNumber text)
  | none => .error (.invalidNumber text)

/-- The angle in degrees that a text writes, in degrees, turns or radians. -/
def readDegrees (text : String) : Except FunctionError Float := do
  let d ← readDimension text
  if d.isUnitless || d.unit = "deg" then .ok d.value
  else if d.unit = "turn" then .ok (d.value * 360)
  else if d.unit = "rad" then .ok (Binary64.toDegrees d.value)
  else .error (.invalidArgument "angle" ("'" ++ text ++ "' is not an angle"))

/-- The fraction that a number without a unit stands for: a percentage when it is beyond 1. -/
def amountOfNumber (x : Float) : Float := if 1 < x.abs then x / 100 else x

/-- The fraction that a percentage or a plain number writes. -/
def readAmount (text : String) : Except FunctionError Float := do
  let d ← readDimension text
  if d.unit = "%" then .ok (d.value / 100)
  else if d.isUnitless then .ok (amountOfNumber d.value)
  else .error (.invalidArgument "amount" ("'" ++ text ++ "' must be a percentage or a fraction"))

/-- The color that a text writes. -/
def readColor (text : String) : Except FunctionError Rgba :=
  match Color.parse? text with
  | some c => .ok c
  | none => .error (.invalidColor (Text.unquoted text))

/-- The fraction of an option. -/
def amountOfOption : Json → Except FunctionError Float
  | .number n => .ok (amountOfNumber n.toFloat)
  | .string text => readAmount text
  | value => .error (.invalidNumber value.render)

/-- The dimension of an option; a number has no unit. -/
def dimensionOfOption : Json → Except FunctionError Dimension
  | .number n => .ok (.unitless n.toFloat)
  | .string text => readDimension text
  | value => .error (.invalidDimension value.render)

/-- The number of an option. -/
def numberOfOption : Json → Except FunctionError Float
  | .number n => .ok n.toFloat
  | .string text => readNumber text
  | value => .error (.invalidNumber value.render)

/-- The angle of an option; a number is one of degrees. -/
def degreesOfOption : Json → Except FunctionError Float
  | .string text => readDegrees text
  | value => numberOfOption value

/-- How many arguments there are. -/
def count (args : Arguments) : Nat := args.texts.length

/-- Refuses more than `most` arguments. -/
def atMost (args : Arguments) (most : Nat) : Except FunctionError Unit :=
  if most < args.count then .error (.tooManyArguments most args.count) else .ok ()

/-- The argument at a position without quotes, unless it is absent or empty. -/
def optional? (args : Arguments) (position : Nat) : Option String :=
  (args.texts[position]?.map Text.unquoted).filter fun text => !text.isEmpty

/-- The argument at a position, which must not be absent. -/
def required (args : Arguments) (position : Nat) (name : String) : Except FunctionError String :=
  match args.optional? position with
  | some text => .ok text
  | none => .error (.missingArgument name position)

def color (args : Arguments) (position : Nat) (name : String) : Except FunctionError Rgba := do
  readColor (← args.required position name)

def dimension (args : Arguments) (position : Nat) (name : String) :
    Except FunctionError Dimension := do
  readDimension (← args.required position name)

def number (args : Arguments) (position : Nat) (name : String) : Except FunctionError Float := do
  readNumber (← args.required position name)

def amount (args : Arguments) (position : Nat) (name : String) : Except FunctionError Float := do
  readAmount (← args.required position name)

/-- What `read` finds at a position, or `absent` when the argument is absent. -/
def orElse {α : Type} (args : Arguments) (position : Nat) (absent : α)
    (read : String → Except FunctionError α) : Except FunctionError α :=
  match args.optional? position with
  | some text => read text
  | none => .ok absent

/-- The options that the last argument writes. -/
def options? (args : Arguments) : Option (KeyedList Json) :=
  args.texts.getLast?.bind Expression.parseObject?

/-- How many arguments there are before the options. -/
def positionalCount (args : Arguments) : Nat :=
  if args.options?.isSome then args.count - 1 else args.count

end Arguments

end DesignTokens
