import DesignTokens.Files
import DesignTokens.Instant

/-!
# Hosts

What the program needs from the system it runs on: files, two streams to print to, the environment and
a clock. A `Session` is such a system held in memory, with a clock that stands still.
-/

namespace DesignTokens.CommandLine

/-- The operations of the system that the program runs on. -/
structure Host (m : Type → Type) where
  readFile : String → m (Except FileError String)
  writeFile : (path content : String) → m (Except FileError Unit)
  /-- Prints to the standard output. -/
  print : String → m Unit
  /-- Prints to the standard error stream. -/
  printError : String → m Unit
  environment : String → m (Option String)
  now : m Instant

/-- A system held in memory. -/
structure Session where
  directory : Directory
  environment : KeyedList String
  output : String
  errors : String

namespace Session

/-- A system on which nothing has been printed. -/
def start (directory : Directory) (environment : KeyedList String) : Session :=
  ⟨directory, environment, "", ""⟩

/-- The operations of a system held in memory. -/
def host : Host (StateM Session) where
  readFile path := do
    let session ← get
    pure (session.directory.read path)
  writeFile path content := do
    let session ← get
    match session.directory.write path content with
    | .ok directory => do
      set { session with directory := directory }
      pure (.ok ())
    | .error e => pure (.error e)
  print text := modify fun session => { session with output := session.output ++ text }
  printError text := modify fun session => { session with errors := session.errors ++ text }
  environment name := do
    let session ← get
    pure (KeyedList.get? session.environment name)
  now := pure ⟨0⟩

end Session

end DesignTokens.CommandLine
