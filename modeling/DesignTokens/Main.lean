import DesignTokens.CommandLine.Run
import Std.Time.DateTime.Timestamp

/-!
# The executable

The program on the system it is started on.
-/

namespace DesignTokens.CommandLine

/-- The reason that the system gives for a file it cannot read or write. -/
def fileErrorOf (e : IO.Error) : FileError :=
  match e with
  | .noFileOrDirectory .. => .notFound
  | .inappropriateType _ code _ => if code = 20 then .notDirectory else .isDirectory
  | e => .other (toString e)

/-- What an operation on a file yields. -/
def attempt {α : Type} (x : IO α) : IO (Except FileError α) := do
  match ← x.toBaseIO with
  | .ok a => pure (.ok a)
  | .error e => pure (.error (fileErrorOf e))

/-- The operations of the system. -/
def systemHost : Host IO where
  readFile path := attempt (IO.FS.readFile path)
  writeFile path content := attempt (IO.FS.writeFile path content)
  print text := do
    let stream ← IO.getStdout
    stream.putStr text
    stream.flush
  printError text := do
    let stream ← IO.getStderr
    stream.putStr text
  environment name := IO.getEnv name
  now := do
    let now ← Std.Time.Timestamp.now
    pure ⟨now.toMillisecondsSinceUnixEpoch.val.toNat⟩

end DesignTokens.CommandLine

open DesignTokens.CommandLine in
/-- Runs the program on the system. -/
def main (args : List String) : IO UInt32 := do
  let code ← program systemHost args
  pure code.toUInt32
