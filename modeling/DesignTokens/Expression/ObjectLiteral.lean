import DesignTokens.Decimal.Numeral
import DesignTokens.Expression.Nesting
import DesignTokens.Json.Basic

/-!
# Object literals

Options of a function are written `{ key: value, ... }`. A value that reads as a finite number is a
number and any other a string; keys and values may stand in quotes, and of two entries with one key
the last counts.
-/

namespace DesignTokens.Expression

open Text

/-- The value of an entry: a finite number, or else the text itself. -/
def optionValue (text : List Char) : Json :=
  match Decimal.readFloat? text with
  | some x => if x.isFinite then .number (.real x) else .string (String.ofList text)
  | none => .string (String.ofList text)

/-- The key and the value of one pair; the key is not empty. -/
def optionPair? (pair : List Char) : Option (String × Json) :=
  match cut? ':' pair with
  | none => none
  | some (key, value) =>
    let key := unquote key
    if key.isEmpty then none else some (String.ofList key, optionValue (unquote value))

/-- The pairs between the braces of an object literal, which hold at least one colon. -/
def optionPairs? (s : List Char) : Option (List (String × Json)) := do
  let body ← afterStart? ['{'] (trim s)
  let body ← beforeLast? '}' body
  if body.contains ':' then (splitArguments body).mapM optionPair? else none

/-- The options that an object literal writes. -/
def parseObject? (text : String) : Option (KeyedList Json) :=
  (optionPairs? text.toList).map KeyedList.ofList

end DesignTokens.Expression
