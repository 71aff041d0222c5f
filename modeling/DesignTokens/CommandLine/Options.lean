import DesignTokens.Text.Basic

/-!
# Options on a command line

The arguments of a level, which is the program itself or one of its commands, are options and words. An
option has a long name and perhaps a letter; letters may stand together behind one dash. The value of
an option stands behind an equals sign, behind its letter, or in the next argument, which then must
not look like an option itself. After `--` there are only words.
-/

namespace DesignTokens.CommandLine

open Text

/-- What an option takes. -/
inductive Taking where
  /-- No value; it may be given more than once if it is `repeatable`. -/
  | nothing (repeatable : Bool)
  /-- A value that satisfies `accepts`. -/
  | value (accepts : String → Bool)

/-- An option of a level. -/
structure OptionSpec where
  name : String
  letter : Option Char
  takes : Taking

/-- Why no command is run. -/
inductive Stop where
  /-- There is nothing on the command line. -/
  | nothingGiven
  /-- The arguments do not fit. -/
  | misuse
  | version
  | help
  deriving DecidableEq, Repr

/-- What is given on a level so far. -/
structure Given where
  /-- The options with their values, in order; an option without a value has an empty one. -/
  options : List (String × String)
  words : List String
  deriving DecidableEq, Repr

namespace Given

/-- Nothing is given. -/
def nothing : Given := ⟨[], []⟩

/-- How often an option is given. -/
def count (g : Given) (name : String) : Nat := g.options.countP fun (n, _) => n == name

/-- Whether an option is given. -/
def has (g : Given) (name : String) : Bool := 0 < g.count name

/-- The value of an option, if it is given. -/
def value? (g : Given) (name : String) : Option String :=
  (g.options.find? fun (n, _) => n == name).map (·.2)

end Given

/-- The options and words of a level. -/
structure LevelSpec where
  options : List OptionSpec
  /-- Whether the version can be asked for, and a word names a command. -/
  isProgram : Bool
  /-- How many words there may be. -/
  words : Nat

namespace LevelSpec

/-- Whether an argument looks like an option. -/
def looksLikeOption (arg : String) : Bool := arg.toList.head? = some '-' && arg ≠ "-"

/-- One more option with its value. -/
def add (g : Given) (spec : OptionSpec) (value : String) : Except Stop Given :=
  let fits :=
    match spec.takes with
    | .nothing repeatable => repeatable || !g.has spec.name
    | .value accepts => accepts value && !g.has spec.name
  if fits then .ok { g with options := g.options ++ [(spec.name, value)] } else .error .misuse

/-- One more option whose value is the next argument. -/
def addNext (g : Given) (spec : OptionSpec) (next : Option String) : Except Stop Given :=
  match next with
  | some value => if looksLikeOption value then .error .misuse else add g spec value
  | none => .error .misuse

/-- Takes a long option in, and says whether the next argument was its value. -/
def readLong (l : LevelSpec) (g : Given) (text : List Char) (next : Option String) :
    Except Stop (Given × Bool) :=
  let (name, value) :=
    match cut? '=' text with
    | some (name, value) => (String.ofList name, some (String.ofList value))
    | none => (String.ofList text, none)
  if name = "help" && value.isNone then .error .help
  else if l.isProgram && name = "version" && value.isNone then .error .version
  else
    match l.options.find? (·.name == name) with
    | none => .error .misuse
    | some spec =>
      match spec.takes, value with
      | .nothing _, none => (add g spec "").map fun g => (g, false)
      | .nothing _, some _ => .error .misuse
      | .value _, some value => (add g spec value).map fun g => (g, false)
      | .value _, none => (addNext g spec next).map fun g => (g, true)

/-- Takes letters in that stand together, and says whether the next argument was a value. -/
def readLetters (l : LevelSpec) (g : Given) (letters : List Char) (next : Option String) :
    Except Stop (Given × Bool) :=
  match letters with
  | [] => .ok (g, false)
  | c :: rest =>
    if c = 'h' then .error .help
    else if l.isProgram && c = 'V' then .error .version
    else
      match l.options.find? (·.letter == some c) with
      | none => .error .misuse
      | some spec =>
        match spec.takes, rest with
        | .nothing _, _ => do
          let g ← add g spec ""
          readLetters l g rest next
        | .value _, [] => (addNext g spec next).map fun g => (g, true)
        | .value _, '=' :: value => (add g spec (String.ofList value)).map fun g => (g, false)
        | .value _, value => (add g spec (String.ofList value)).map fun g => (g, false)

/-- Takes an option in, and says whether the next argument was its value. -/
def readOption (l : LevelSpec) (g : Given) (arg : String) (next : Option String) :
    Except Stop (Given × Bool) :=
  match arg.toList with
  | '-' :: '-' :: text => l.readLong g text next
  | _ :: letters => l.readLetters g letters next
  | [] => .ok (g, false)

/-- The level with words added. -/
def addWords (l : LevelSpec) (g : Given) (words : List String) : Except Stop Given :=
  let words := g.words ++ words
  if l.words < words.length then .error .misuse else .ok { g with words := words }

/-- What is given on a level, and the arguments from the name of a command on. -/
def read (l : LevelSpec) (g : Given) (args : List String) : Except Stop (Given × List String) :=
  match args with
  | [] => .ok (g, [])
  | arg :: rest =>
    if arg = "--" then (l.addWords g rest).map fun g => (g, [])
    else if looksLikeOption arg then
      match rest with
      | [] => do
        let (g, _) ← l.readOption g arg none
        pure (g, [])
      | next :: more => do
        let (g, taken) ← l.readOption g arg (some next)
        if taken then l.read g more else l.read g (next :: more)
    else if l.isProgram then .ok (g, arg :: rest)
    else do
      let g ← l.addWords g [arg]
      l.read g rest

end LevelSpec

end DesignTokens.CommandLine
