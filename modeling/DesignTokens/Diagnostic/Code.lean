/-!
# Diagnostic codes

Every event carries a code. A code that this library knows has a category, a severity, a description
and advice; an unknown one is of medium severity, recoverable, and has stock texts.
-/

namespace DesignTokens

/-- How grave a condition is. -/
inductive Severity where
  | critical
  | high
  | medium
  | low
  deriving DecidableEq, Repr

namespace Severity

/-- The rank of a severity, the gravest first. -/
def rank : Severity → Nat
  | .critical => 0
  | .high => 1
  | .medium => 2
  | .low => 3

def name : Severity → String
  | .critical => "Critical"
  | .high => "High"
  | .medium => "Medium"
  | .low => "Low"

/-- All severities, the gravest first. -/
def all : List Severity := [.critical, .high, .medium, .low]

/-- The severity of a name. -/
def parse? (text : String) : Option Severity := all.find? (·.name == text)

end Severity

/-- A diagnostic code. -/
structure Code where
  text : String
  deriving DecidableEq, Repr

namespace Code

def internalError : Code := ⟨"ERR001"⟩
def initializationFailure : Code := ⟨"ERR002"⟩
def invalidConfiguration : Code := ⟨"E010"⟩
def configurationUnreadable : Code := ⟨"E011"⟩
def environmentIgnored : Code := ⟨"W012"⟩
def notATree : Code := ⟨"E020"⟩
def invalidToken : Code := ⟨"W021"⟩
def unresolvedReference : Code := ⟨"W110"⟩
def referenceToGroup : Code := ⟨"W111"⟩
def referenceCycle : Code := ⟨"W140"⟩
def unknownFunction : Code := ⟨"W200"⟩
def reentrantCall : Code := ⟨"W201"⟩
def functionFailed : Code := ⟨"W202"⟩
def cssPassthrough : Code := ⟨"D203"⟩
def plainWarning : Code := ⟨"W000"⟩
def plainInfo : Code := ⟨"I000"⟩
def plainDebug : Code := ⟨"D000"⟩
def configurationLoaded : Code := ⟨"I010"⟩
def treeLoaded : Code := ⟨"I020"⟩
def valueResolved : Code := ⟨"I060"⟩
def treeResolved : Code := ⟨"I070"⟩
def functionRegistered : Code := ⟨"I080"⟩

/-- What is known about a code. -/
structure Metadata where
  code : Code
  category : String
  severity : Severity
  recoverable : Bool
  description : String
  action : String
  deriving DecidableEq, Repr

/-- The known codes. -/
def registry : List Metadata :=
  [ ⟨internalError, "System", .critical, false, "Critical internal engine error",
      "File a bug report with the offending token tree"⟩,
    ⟨initializationFailure, "System", .critical, false, "Engine initialization failure",
      "Check logging and engine configuration"⟩,
    ⟨invalidConfiguration, "Configuration", .high, false, "Engine configuration is invalid",
      "Fix the reported configuration field"⟩,
    ⟨configurationUnreadable, "Configuration", .high, false,
      "Configuration file could not be read", "Check the configuration path and permissions"⟩,
    ⟨environmentIgnored, "Configuration", .medium, true,
      "DTK_* environment overrides are invalid; built-in defaults used",
      "Fix or unset the DTK_* variables named in the message"⟩,
    ⟨notATree, "Tree", .high, false, "Input is not a token tree",
      "Pass a JSON object at the root of the token tree"⟩,
    ⟨invalidToken, "Tree", .low, true, "Token entry has an unexpected shape",
      "Give every token a `value` or `$value` field"⟩,
    ⟨unresolvedReference, "References", .medium, true,
      "Reference does not point at a defined token",
      "Check the dot-path spelling or define the missing token"⟩,
    ⟨referenceToGroup, "References", .medium, true,
      "Reference points at a token group, not a token",
      "Reference a leaf token inside the group"⟩,
    ⟨referenceCycle, "References", .high, true, "Reference cycle detected",
      "Break the cycle so that no token depends on itself"⟩,
    ⟨unknownFunction, "Functions", .medium, true, "Function is not registered in the catalog",
      "Check the function name or register a custom function"⟩,
    ⟨reentrantCall, "Functions", .high, true, "Function call re-enters itself",
      "Remove the recursive call from the expression"⟩,
    ⟨functionFailed, "Functions", .medium, true, "Function evaluation failed",
      "Check argument types, units and ranges"⟩,
    ⟨cssPassthrough, "Functions", .low, true, "CSS-native function left for the browser",
      "No action required"⟩ ]

/-- What is known about a code, if it is a known one. -/
def metadata? (c : Code) : Option Metadata := registry.find? (·.code == c)

/-- The description of an unknown code. -/
def unknownDescription : String := "Unknown error"

/-- The advice for an unknown code. -/
def noAction : String := "No specific action available"

def severity (c : Code) : Severity := (c.metadata?.map (·.severity)).getD .medium
def recoverable (c : Code) : Bool := (c.metadata?.map (·.recoverable)).getD true
def description (c : Code) : String := (c.metadata?.map (·.description)).getD unknownDescription
def action (c : Code) : String := (c.metadata?.map (·.action)).getD noAction
def category (c : Code) : String := (c.metadata?.map (·.category)).getD "Unknown"

/-- Whether a code is one of a warning: it starts with `W`. -/
def isWarning (c : Code) : Bool := c.text.toList.head? = some 'W'

end Code

end DesignTokens
