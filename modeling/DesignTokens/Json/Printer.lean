import DesignTokens.Decimal.Shortest
import DesignTokens.Json.Basic

/-!
# Writing JSON

A value is written without any white space, or over several lines with two spaces for each level.
Entries come in the order of the list. Only quotes, backslashes and control characters are escaped.

A double has its shortest digits. It is written with a point and at least one digit after it while
its first digit stands between the fifth place after the point and the sixteenth before it, and with
an exponent otherwise.
-/

namespace DesignTokens.Json

/-- The digit of base sixteen, in lower case. -/
def hexDigit (n : Nat) : Char := if n < 10 then Char.ofNat (48 + n) else Char.ofNat (87 + n)

/-- A character as it stands inside a JSON string. -/
def escape (c : Char) : List Char :=
  if c = '"' then ['\\', '"']
  else if c = '\\' then ['\\', '\\']
  else if c = '\x08' then ['\\', 'b']
  else if c = '\x0c' then ['\\', 'f']
  else if c = '\n' then ['\\', 'n']
  else if c = '\r' then ['\\', 'r']
  else if c = '\t' then ['\\', 't']
  else if c.toNat < 0x20 then
    ['\\', 'u', '0', '0', hexDigit (c.toNat / 16), hexDigit (c.toNat % 16)]
  else [c]

/-- A text as a JSON string. -/
def quote (s : String) : String :=
  String.ofList ('"' :: s.toList.flatMap escape ++ ['"'])

/-- The text of a double in a JSON document. -/
def realText (x : Float) : String :=
  match Binary64.view x with
  | .finite negative mantissa exponent =>
    let magnitude :=
      if mantissa = 0 then ['0', '.', '0']
      else
        let d := Decimal.shortest .even mantissa exponent
        if -5 ≤ d.leading ∧ d.leading ≤ 15 then
          if 0 ≤ d.exponent then d.plain ++ ['.', '0'] else d.plain
        else d.scientific
    String.ofList (if negative then '-' :: magnitude else magnitude)
  | _ => "null"

/-- The text of a number. -/
def Number.render : Number → String
  | .integer n => if n < 0 then "-" ++ toString n.natAbs else toString n.natAbs
  | .real x => realText x

mutual

/-- A value without white space. -/
def render : Json → String
  | .null => "null"
  | .bool b => if b then "true" else "false"
  | .number n => n.render
  | .string s => quote s
  | .array items => "[" ++ ",".intercalate (renderItems items) ++ "]"
  | .object entries => "\x7b" ++ ",".intercalate (renderEntries entries) ++ "\x7d"

/-- Each value without white space. -/
def renderItems : List Json → List String
  | [] => []
  | item :: items => render item :: renderItems items

/-- Each entry without white space. -/
def renderEntries : List (String × Json) → List String
  | [] => []
  | (key, value) :: entries => (quote key ++ ":" ++ render value) :: renderEntries entries

end

/-- The lines of a container between its brackets, or the brackets alone when it is empty. -/
def block (depth : Nat) (left right : String) (lines : List String) : String :=
  if lines.isEmpty then left ++ right
  else
    let indent (n : Nat) := "\n" ++ String.ofList (List.replicate (2 * n) ' ')
    left ++ indent (depth + 1) ++ ("," ++ indent (depth + 1)).intercalate lines ++
      indent depth ++ right

mutual

/-- A value over several lines, as it stands `depth` levels deep. -/
def prettyAt (depth : Nat) : Json → String
  | .array items => block depth "[" "]" (prettyItems (depth + 1) items)
  | .object entries => block depth "\x7b" "\x7d" (prettyEntries (depth + 1) entries)
  | .null => "null"
  | .bool b => if b then "true" else "false"
  | .number n => n.render
  | .string s => quote s

/-- Each value over several lines. -/
def prettyItems (depth : Nat) : List Json → List String
  | [] => []
  | item :: items => prettyAt depth item :: prettyItems depth items

/-- Each entry over several lines. -/
def prettyEntries (depth : Nat) : List (String × Json) → List String
  | [] => []
  | (key, value) :: entries =>
    (quote key ++ ": " ++ prettyAt depth value) :: prettyEntries depth entries

end

/-- A value over several lines. -/
def pretty (value : Json) : String := prettyAt 0 value

end DesignTokens.Json
