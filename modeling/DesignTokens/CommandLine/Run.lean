import DesignTokens.CommandLine.Host
import DesignTokens.CommandLine.Invocation
import DesignTokens.Diagnostic.Log
import DesignTokens.Engine.Basic
import DesignTokens.Settings.Document

/-!
# Running the program

The program reads its settings, carries out its command and ends with an exit code: 0 when the command
was carried out, and 2 when the arguments or a file are not as they should be. Warnings about tokens
are no failures. Results go to the standard output, the log, reports and failures to the standard
error stream.
-/

namespace DesignTokens.CommandLine

/-- Why a command is not carried out. -/
inductive Failure where
  | unreadable (path : String) (reason : FileError)
  | unwritable (path : String) (reason : FileError)
  | tree (path : String) (reason : TreeError)
  | settings (reason : SettingsError)
  | unknownFamily (name : String)
  deriving DecidableEq

/-- The wording of a failure. -/
def Failure.message : Failure → String
  | .unreadable path reason => "failed to read '" ++ path ++ "': " ++ reason.message
  | .unwritable path reason => "failed to write '" ++ path ++ "': " ++ reason.message
  | .tree path reason => "invalid token file '" ++ path ++ "': " ++ reason.message
  | .settings reason => reason.message
  | .unknownFamily name => "unknown function family '" ++ name ++ "'"

/-- The exit code of a command that was carried out. -/
def exitDone : Nat := 0

/-- The exit code when the arguments or a file are not as they should be. -/
def exitInvalid : Nat := 2

/-- The version of the program. -/
def versionText : String := "dtk 0.1.0\n"

/-- What the program says about itself. -/
def helpText : String :=
  "Design token expression engine\n\n" ++
  "Usage: dtk [OPTIONS] <COMMAND>\n\n" ++
  "Commands:\n" ++
  "  resolve    Resolve every token in a JSON token file\n" ++
  "  eval       Evaluate one expression, optionally against a token file\n" ++
  "  functions  List the function catalog\n" ++
  "  help       Print this message or the help of the given subcommand(s)\n\n" ++
  "Options:\n" ++
  "  -c, --config <CONFIG>          Engine configuration file (TOML)\n" ++
  "  -v, --verbose...               Increase log output (-v info, -vv debug)\n" ++
  "      --log-format <LOG_FORMAT>  Log line format [default: text] [possible values: text, json]\n" ++
  "  -h, --help                     Print help (see more with '--help')\n" ++
  "  -V, --version                  Print version\n"

/-- The name of a level in five columns. -/
def paddedName (level : Level) : String :=
  level.name ++ String.ofList (List.replicate (5 - level.name.length) ' ')

/-- A line of the log; the lines of a message after its first one are indented. -/
def logLine (level : Level) (message : String) : String :=
  "[" ++ paddedName level ++ " dtk] " ++
    String.ofList (message.toList.flatMap fun c => if c = '\n' then "\n    ".toList else [c]) ++ "\n"

/-- The text of an event in the log. -/
def LogFormat.render (now : Instant) (e : Event) : LogFormat → String
  | .json => (e.toJson now.seconds).render ++ "\n"
  | .text =>
    let path :=
      match e.path with
      | some path => " " ++ path ++ ":"
      | none => ""
    logLine e.level ("[" ++ e.code.text ++ "]" ++ path ++ " " ++ e.message) ++
      String.join (e.context.map fun (key, value) => logLine e.level ("    " ++ key ++ " = " ++ value))

/-- What the program does on a system, as long as nothing fails. -/
abbrev Action (m : Type → Type) (α : Type) := ExceptT Failure m α

variable {m : Type → Type} [Monad m]

/-- Logs some events. -/
def logEvents (host : Host m) (invocation : Invocation) (events : List Event) :
    Action m Unit := do
  let now ← host.now
  (Log.accepted invocation.level events).forM fun e =>
    liftM (host.printError (invocation.logFormat.render now e))

/-- Logs what a trace notes for the log, and goes on with its value. -/
def logTrace {α : Type} (host : Host m) (invocation : Invocation) (x : Traced α) :
    Action m α := do
  logEvents host invocation x.notes
  pure x.value

/-- The environment as far as it holds settings. -/
def environment (host : Host m) : Action m (String → Option String) := do
  let values ← Settings.environmentNames.mapM fun name => do
    let value ← host.environment name
    pure (name, value)
  pure fun name => (KeyedList.get? values name).join

/-- The engine with the settings of the file that is given, or else of the environment. -/
def loadEngine (host : Host m) (invocation : Invocation) : Action m Engine := do
  let env ← environment host
  match invocation.settings with
  | none => logTrace host invocation (Engine.ofEnvironment env)
  | some path => do
    let content ← host.readFile path
    match ← logTrace host invocation (Settings.load env path content) with
    | .error e => throw (.settings e)
    | .ok settings => do
      logEvents host invocation
        [(Event.success .configurationLoaded "Configuration loaded").note "path" path]
      pure ⟨.builtin, settings⟩

/-- The tree of a file. -/
def loadTree (host : Host m) (invocation : Invocation) (path : String) :
    Action m Tree := do
  match ← host.readFile path with
  | .error e => throw (.unreadable path e)
  | .ok text =>
    match Tree.parse text with
    | .error e => throw (.tree path e)
    | .ok tree => do
      logEvents host invocation
        [((Event.success .treeLoaded "Token file loaded").note "path" path).note
          "tokens" (toString tree.tokenCount)]
      pure tree

/-- Prints a report. -/
def printReport (host : Host m) (report : Report) (format : ReportFormat) :
    Action m Unit := do
  let now ← host.now
  host.printError
    (match format with
    | .json => (report.toJson now.seconds now.text).pretty ++ "\n"
    | .text => report.text ++ report.countsLine ++ "\n"
    | .detailed => report.details ++ report.countsLine ++ "\n")

/-- Resolves the tokens of a file. -/
def resolve (host : Host m) (invocation : Invocation) (engine : Engine) (tokens : String)
    (output : Option String) (report : Option ReportFormat) (compact : Bool) :
    Action m Unit := do
  let tree ← loadTree host invocation tokens
  let started ← host.now
  let outcome := engine.resolveAll tree
  logEvents host invocation outcome.log
  let finished ← host.now
  logEvents host invocation
    [Engine.treeResolvedEvent outcome.report.stats (finished.milliseconds - started.milliseconds)]
  let document := outcome.value.toJson
  let text := (if compact then document.render else document.pretty) ++ "\n"
  match output with
  | none => host.print text
  | some path =>
    match ← host.writeFile path text with
    | .error e => throw (.unwritable path e)
    | .ok _ =>
      logEvents host invocation [(Event.info "Resolved tokens written").note "path" path]
  match report with
  | none => pure ()
  | some format => printReport host outcome.report format

/-- Evaluates an expression. -/
def eval (host : Host m) (invocation : Invocation) (engine : Engine) (expression : String)
    (tokens : Option String) : Action m Unit := do
  let tree ←
    match tokens with
    | some path => loadTree host invocation path
    | none => pure .empty
  let outcome := engine.resolveOne tree (.string expression)
  logEvents host invocation outcome.log
  host.print
    ((match outcome.value with
    | .string text => text
    | value => value.pretty) ++ "\n")
  if outcome.report.hasWarnings then host.printError outcome.report.text

/-- The record of a function as JSON, with its entries in the order of the record. -/
def infoJson (info : FunctionInfo) : Json :=
  .object
    [ ("name", .string info.name), ("family", .string info.family.name),
      ("signature", .string info.signature), ("description", .string info.description) ]

/-- The records of some functions as a table with a heading for each family. -/
def listingTable (width : Nat) (family : Option FunctionFamily) : List FunctionInfo → String
  | [] => ""
  | info :: rest =>
    let heading :=
      if family = some info.family then ""
      else (if family.isSome then "\n" else "") ++ info.family.name ++ "\n"
    let padding := String.ofList (List.replicate (width - info.signature.length) ' ')
    heading ++ "  " ++ info.signature ++ padding ++ "  " ++ info.description ++ "\n" ++
      listingTable width (some info.family) rest

/-- Lists the functions of the catalog, or those of one family. -/
def functions (host : Host m) (engine : Engine) (family : Option String) (json : Bool) :
    Action m Unit := do
  let listing ←
    match family with
    | none => pure engine.catalog.list
    | some name =>
      match FunctionFamily.parse? name with
      | some family => pure (engine.catalog.listFamily family)
      | none => throw (.unknownFamily name)
  let width := (listing.map (·.signature.utf8ByteSize)).foldl max 0
  host.print
    (if json then (Json.array (listing.map infoJson)).pretty ++ "\n"
    else listingTable width none listing)

/-- Carries out an invocation. -/
def perform (host : Host m) (invocation : Invocation) : Action m Unit := do
  let engine ← loadEngine host invocation
  match invocation.command with
  | .resolve tokens output report compact =>
    resolve host invocation engine tokens output report compact
  | .eval expression tokens => eval host invocation engine expression tokens
  | .functions family json => functions host engine family json

/-- Carries out what the arguments ask for, and answers with the exit code. -/
def run (host : Host m) (invocation : Invocation) : m Nat := do
  match ← (perform host invocation).run with
  | .ok _ => pure exitDone
  | .error failure => do
    host.printError ("error: " ++ failure.message ++ "\n")
    pure exitInvalid

/-- Answers the arguments that ask for no command, and answers with the exit code. -/
def stop (host : Host m) : Stop → m Nat
  | .version => do
    host.print versionText
    pure exitDone
  | .help => do
    host.print helpText
    pure exitDone
  | .nothingGiven => do
    host.printError helpText
    pure exitInvalid
  | .misuse => do
    host.printError "error: invalid arguments\n\nFor more information, try '--help'.\n"
    pure exitInvalid

/-- The program: carries out its arguments, and answers with the exit code. -/
def program (host : Host m) (args : List String) : m Nat :=
  match Invocation.read args with
  | .ok invocation => run host invocation
  | .error reason => stop host reason

end DesignTokens.CommandLine
