import DesignTokens.Files
import DesignTokens.Settings.Environment
import DesignTokens.Toml.Reader

/-!
# Settings from a document

A TOML document may set any of the settings; those it does not set come from the environment, and keys
it adds are passed over. A whole number will do for a setting that is not whole. The result is refused
when the functions cannot work with it.
-/

namespace DesignTokens

/-- Why there are no settings. -/
inductive SettingsError where
  /-- The file cannot be read. -/
  | unreadable (path : String) (reason : FileError)
  /-- The text is no document. -/
  | document (reason : Toml.ReadError)
  /-- A setting has a value of another kind. -/
  | kind (key : String)
  /-- The functions cannot work with a setting. -/
  | invalid (fault : Settings.Fault)
  deriving DecidableEq

/-- The wording of a failure. -/
def SettingsError.message : SettingsError → String
  | .unreadable path reason =>
    "failed to read configuration file '" ++ path ++ "': " ++ reason.message
  | .document reason => "invalid TOML configuration: " ++ reason.message
  | .kind key => "invalid TOML configuration: wrong kind of value for '" ++ key ++ "'"
  | .invalid fault => fault.message

namespace Settings

/-- The number that a value is. -/
def floatValue? : Toml.Value → Option Float
  | .integer n => some (Json.Number.integer n).toFloat
  | .float x => some x
  | _ => none

/-- The natural number of thirty-two bits that a value is. -/
def wordValue? : Toml.Value → Option Nat
  | .integer n => if 0 ≤ n ∧ n ≤ Decimal.maxWord32 then some n.toNat else none
  | _ => none

/-- The text that a value is. -/
def textValue? : Toml.Value → Option String
  | .string s => some s
  | _ => none

/-- The texts that a value is. -/
def textValues? : Toml.Value → Option (List String)
  | .array items => items.mapM textValue?
  | _ => none

/-- What a document sets under a key, if it sets it. -/
def field {α : Type} (document : KeyedList Toml.Value) (key : String)
    (read : Toml.Value → Option α) : Except SettingsError (Option α) :=
  match KeyedList.get? document key with
  | none => .ok none
  | some value =>
    match read value with
    | some x => .ok (some x)
    | none => .error (.kind key)

/-- The settings of a document, those that it does not set being taken from `absent`. -/
def ofDocument (document : KeyedList Toml.Value) (absent : Traced Settings) :
    Except SettingsError (Traced Settings) := do
  let baseFontSize ← field document "base_font_size" floatValue?
  let precision ← field document "precision" wordValue?
  let minViewport ← field document "min_viewport" floatValue?
  let maxViewport ← field document "max_viewport" floatValue?
  let defaultRatio ← field document "default_ratio" textValue?
  let cssPassthrough ← field document "css_passthrough" textValues?
  pure (absent >>= fun s =>
    pure
      { baseFontSize := baseFontSize.getD s.baseFontSize
        precision := precision.getD s.precision
        minViewport := minViewport.getD s.minViewport
        maxViewport := maxViewport.getD s.maxViewport
        defaultRatio := defaultRatio.getD s.defaultRatio
        cssPassthrough := cssPassthrough.getD s.cssPassthrough })

/-- The settings that a text gives, or why it does not, with the events for the log. -/
def parse (env : String → Option String) (text : String) :
    Traced (Except SettingsError Settings) :=
  match Toml.parse text with
  | .error e => pure (.error (.document e))
  | .ok document =>
    match ofDocument document (fromEnvironment env) with
    | .error e => pure (.error e)
    | .ok settings => do
      let settings ← settings
      match settings.validate with
      | .error fault => pure (.error (.invalid fault))
      | .ok _ => pure (.ok settings)

/-- The settings in a file, given what reading it yields. -/
def load (env : String → Option String) (path : String) (content : Except FileError String) :
    Traced (Except SettingsError Settings) :=
  match content with
  | .error e => pure (.error (.unreadable path e))
  | .ok text => parse env text

end Settings

end DesignTokens
