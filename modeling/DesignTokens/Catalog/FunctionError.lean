import DesignTokens.Settings.Basic

/-!
# Failures of functions

Why a function of the catalog does not answer. A failure is never fatal: the call stays as it is
written and a warning carries the wording.
-/

namespace DesignTokens

/-- Why a function does not answer. -/
inductive FunctionError where
  | missingArgument (name : String) (position : Nat)
  | tooManyArguments (most found : Nat)
  | invalidColor (text : String)
  | invalidDimension (text : String)
  | invalidNumber (text : String)
  | invalidArgument (name reason : String)
  | incompatibleUnits (left right : String)
  | divisionByZero (operation : String)
  | unknownRatio (text : String)
  | unknownStep (text : String)
  deriving DecidableEq, Repr

namespace FunctionError

/-- The wording of a failure. -/
def message : FunctionError → String
  | .missingArgument name position =>
    "missing required argument '" ++ name ++ "' (position " ++ toString position ++ ")"
  | .tooManyArguments most found =>
    "expected at most " ++ toString most ++ " argument(s), got " ++ toString found
  | .invalidColor text => "'" ++ text ++ "' is not a recognized color"
  | .invalidDimension text => "'" ++ text ++ "' is not a valid dimension"
  | .invalidNumber text => "'" ++ text ++ "' is not a valid number"
  | .invalidArgument name reason => "invalid value for '" ++ name ++ "': " ++ reason
  | .incompatibleUnits left right => "incompatible units: '" ++ left ++ "' and '" ++ right ++ "'"
  | .divisionByZero operation => "division by zero in " ++ operation
  | .unknownRatio text => "unknown scale ratio '" ++ text ++ "'"
  | .unknownStep text => "unknown scale step '" ++ text ++ "'"

end FunctionError

end DesignTokens
