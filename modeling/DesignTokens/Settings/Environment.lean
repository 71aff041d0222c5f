import DesignTokens.Decimal.Numeral
import DesignTokens.Diagnostic.Trace
import DesignTokens.Settings.Basic

/-!
# Settings from the environment

Environment variables override built-in settings one by one. A variable that does not read as a value
of its setting is passed over. When the functions cannot work with the overridden settings, the
overrides are dropped as a whole and a warning goes to the log.
-/

namespace DesignTokens.Settings

/-- The variables that hold settings. -/
def environmentNames : List String :=
  [ "DTK_BASE_FONT_SIZE", "DTK_PRECISION", "DTK_MIN_VIEWPORT", "DTK_MAX_VIEWPORT",
    "DTK_DEFAULT_RATIO" ]

/-- The built-in settings with the variables that read as values of their settings. -/
def overlay (env : String → Option String) : Settings :=
  let float (name : String) (absent : Float) : Float :=
    ((env name).bind fun text => Decimal.readFloat? text.toList).getD absent
  { baseFontSize := float "DTK_BASE_FONT_SIZE" builtin.baseFontSize
    precision :=
      ((env "DTK_PRECISION").bind fun text =>
        Decimal.readNat? Decimal.maxWord32 text.toList).getD builtin.precision
    minViewport := float "DTK_MIN_VIEWPORT" builtin.minViewport
    maxViewport := float "DTK_MAX_VIEWPORT" builtin.maxViewport
    defaultRatio := (env "DTK_DEFAULT_RATIO").getD builtin.defaultRatio
    cssPassthrough := builtin.cssPassthrough }

/-- The warning that the variables are passed over. -/
def ignoredEvent (fault : Fault) : Event :=
  (Event.warning .environmentIgnored "Ignoring DTK_* environment overrides").note
    "reason" fault.message

/-- The settings that some variables give. -/
def fromEnvironment (env : String → Option String) : Traced Settings :=
  let settings := overlay env
  match settings.validate with
  | .ok _ => pure settings
  | .error fault => do
    Traced.step (.noted (ignoredEvent fault))
    pure builtin

end DesignTokens.Settings
