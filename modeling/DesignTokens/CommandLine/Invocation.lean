import DesignTokens.CommandLine.Options
import DesignTokens.Diagnostic.Event

/-!
# Invocations

What the arguments of the program ask for: one of its commands, and how much is logged in which form.
The options of the program may stand before the command or among its own ones, and the latter count.
-/

namespace DesignTokens.CommandLine

/-- The form of the log. -/
inductive LogFormat where
  | text
  | json
  deriving DecidableEq, Repr

namespace LogFormat

/-- The form of a name. -/
def parse? : String → Option LogFormat
  | "text" => some .text
  | "json" => some .json
  | _ => none

end LogFormat

/-- The form of a report. -/
inductive ReportFormat where
  | text
  | detailed
  | json
  deriving DecidableEq, Repr

namespace ReportFormat

/-- The form of a name. -/
def parse? : String → Option ReportFormat
  | "text" => some .text
  | "detailed" => some .detailed
  | "json" => some .json
  | _ => none

end ReportFormat

/-- A command of the program. -/
inductive Command where
  /-- Resolves every token of a file, to a file or to the standard output. -/
  | resolve (tokens : String) (output : Option String) (report : Option ReportFormat)
      (compact : Bool)
  /-- Evaluates an expression, which may refer to the tokens of a file. -/
  | eval (expression : String) (tokens : Option String)
  /-- Lists the functions of the catalog. -/
  | functions (family : Option String) (json : Bool)
  deriving DecidableEq, Repr

/-- What the program is asked to do. -/
structure Invocation where
  /-- The file with the settings. -/
  settings : Option String
  /-- The level of the log. -/
  level : Level
  logFormat : LogFormat
  command : Command
  deriving DecidableEq, Repr

namespace Invocation

/-- An option that is a path. -/
def pathOption (name : String) (letter : Char) : OptionSpec :=
  ⟨name, some letter, .value fun text => !text.isEmpty⟩

/-- The options of the program. -/
def programOptions : List OptionSpec :=
  [ pathOption "config" 'c',
    ⟨"verbose", some 'v', .nothing true⟩,
    ⟨"log-format", none, .value fun text => (LogFormat.parse? text).isSome⟩ ]

/-- The level of the program itself. -/
def program : LevelSpec := ⟨programOptions, true, 0⟩

/-- The level of the command `resolve`. -/
def resolveLevel : LevelSpec where
  options := programOptions ++
    [ pathOption "output" 'o',
      ⟨"report", none, .nothing false⟩,
      ⟨"report-format", none, .value fun text => (ReportFormat.parse? text).isSome⟩,
      ⟨"compact", none, .nothing false⟩ ]
  isProgram := false
  words := 1

/-- The level of the command `eval`. -/
def evalLevel : LevelSpec := ⟨programOptions ++ [pathOption "tokens" 't'], false, 1⟩

/-- The level of the command `functions`. -/
def functionsLevel : LevelSpec where
  options := programOptions ++
    [⟨"family", some 'f', .value fun _ => true⟩, ⟨"json", none, .nothing false⟩]
  isProgram := false
  words := 0

/-- The level of the log that some requests for more of it ask for. -/
def levelOf : Nat → Level
  | 0 => .warning
  | 1 => .info
  | _ => .debug

/-- The invocation of a command with what is given before its name and behind it. -/
def of (outer inner : Given) (command : Command) : Invocation where
  settings := inner.value? "config" <|> outer.value? "config"
  level :=
    levelOf (if inner.has "verbose" then inner.count "verbose" else outer.count "verbose")
  logFormat :=
    ((inner.value? "log-format" <|> outer.value? "log-format").bind LogFormat.parse?).getD .text
  command := command

/-- The command of a name with the arguments behind it. -/
def readCommand (outer : Given) (name : String) (args : List String) :
    Except Stop Invocation :=
  if name = "resolve" then do
    let (g, _) ← resolveLevel.read .nothing args
    match g.words with
    | tokens :: _ =>
      let format := ((g.value? "report-format").bind ReportFormat.parse?).getD .text
      if tokens.isEmpty then .error .misuse
      else
        .ok (of outer g (.resolve tokens (g.value? "output")
          (if g.has "report" then some format else none) (g.has "compact")))
    | [] => .error .misuse
  else if name = "eval" then do
    let (g, _) ← evalLevel.read .nothing args
    match g.words with
    | expression :: _ => .ok (of outer g (.eval expression (g.value? "tokens")))
    | [] => .error .misuse
  else if name = "functions" then do
    let (g, _) ← functionsLevel.read .nothing args
    .ok (of outer g (.functions (g.value? "family") (g.has "json")))
  else if name = "help" then .error .help
  else .error .misuse

/-- What the arguments ask for. -/
def read (args : List String) : Except Stop Invocation := do
  let (outer, rest) ← program.read .nothing args
  match rest with
  | name :: args => readCommand outer name args
  | [] => .error (if outer.options.isEmpty then .nothingGiven else .misuse)

end Invocation

end DesignTokens.CommandLine
