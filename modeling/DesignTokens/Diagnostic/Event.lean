import DesignTokens.Diagnostic.Code
import DesignTokens.Json.Basic

/-!
# Events

An event says what happened: its level, its code, a message, the path of the token that was being
resolved, and some context under names. Two events with the same code, message, path and context are
the same diagnostic, whatever their level.
-/

namespace DesignTokens

/-- The level of an event, the most urgent first. -/
inductive Level where
  | error
  | warning
  | info
  | debug
  deriving DecidableEq, Repr

namespace Level

/-- The rank of a level, the most urgent first. -/
def rank : Level → Nat
  | .error => 0
  | .warning => 1
  | .info => 2
  | .debug => 3

def name : Level → String
  | .error => "ERROR"
  | .warning => "WARN"
  | .info => "INFO"
  | .debug => "DEBUG"

end Level

/-- Something that happened. -/
structure Event where
  level : Level
  code : Code
  message : String
  /-- The path of the token that was being resolved. -/
  path : Option String
  context : KeyedList String
  deriving DecidableEq, Repr

namespace Event

/-- An event without path and context. -/
def of (level : Level) (code : Code) (message : String) : Event := ⟨level, code, message, none, []⟩

def error (code : Code) (message : String) : Event := of .error code message
def warning (code : Code) (message : String) : Event := of .warning code message
def success (code : Code) (message : String) : Event := of .info code message
def info (message : String) : Event := of .info .plainInfo message
def debug (code : Code) (message : String) : Event := of .debug code message

/-- The event with one more entry in its context. -/
def note (e : Event) (key value : String) : Event :=
  { e with context := KeyedList.insert e.context key value }

/-- The event with the path of a token. -/
def inToken (e : Event) (path : String) : Event := { e with path := some path }

def isError (e : Event) : Bool := e.level == .error
def isWarning (e : Event) : Bool := e.level == .warning
def isInfo (e : Event) : Bool := e.level == .info
def isDebug (e : Event) : Bool := e.level == .debug

/-- Whether two events report the same diagnostic. -/
def sameDiagnostic (a b : Event) : Bool :=
  a.code == b.code && a.message == b.message && a.path == b.path && a.context == b.context

/-- The event on one line. -/
def line (e : Event) : String :=
  let place :=
    match e.path with
    | some path => " at " ++ path
    | none => ""
  "[" ++ e.level.name ++ "] " ++ e.code.text ++ " - " ++ e.message ++ place

/-- The event with everything that is known about its code, over several lines. -/
def details (e : Event) : String :=
  let description :=
    if e.code.description = Code.unknownDescription then ""
    else "\n  Description: " ++ e.code.description
  let action :=
    if e.code.action = Code.noAction then "" else "\n  Recommended action: " ++ e.code.action
  let context :=
    if e.context.isEmpty then ""
    else
      "\n  Context:" ++
        String.join (e.context.map fun (key, value) => "\n    " ++ key ++ ": " ++ value)
  e.line ++ "\n  Category: " ++ e.code.category ++ "\n  Severity: " ++ e.code.severity.name ++
    description ++ action ++ context

/-- The event as a JSON object, raised at the given second of the epoch. -/
def toJson (e : Event) (seconds : Nat) : Json :=
  let required : List (String × Json) :=
    [ ("category", .string e.code.category),
      ("code", .string e.code.text),
      ("level", .string e.level.name),
      ("message", .string e.message),
      ("severity", .string e.code.severity.name),
      ("timestamp", .number (.integer seconds)) ]
  let path : List (String × Json) :=
    match e.path with
    | some path => [("token_path", .string path)]
    | none => []
  let context : List (String × Json) :=
    if e.context.isEmpty then []
    else [("context", .object (e.context.map fun (key, value) => (key, .string value)))]
  .object (KeyedList.ofList (required ++ path ++ context))

end Event

/-- How many events there are of each level. -/
structure EventSummary where
  total : Nat
  errors : Nat
  warnings : Nat
  infos : Nat
  debugs : Nat
  deriving DecidableEq, Repr

namespace EventSummary

/-- The counts of some events. -/
def ofEvents (events : List Event) : EventSummary where
  total := events.length
  errors := events.countP (·.isError)
  warnings := events.countP (·.isWarning)
  infos := events.countP (·.isInfo)
  debugs := events.countP (·.isDebug)

def hasErrors (s : EventSummary) : Bool := 0 < s.errors
def hasWarnings (s : EventSummary) : Bool := 0 < s.warnings

end EventSummary

end DesignTokens
