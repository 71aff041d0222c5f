import DesignTokens.Json.Basic

/-!
# Tokens

A token is a JSON object with an entry `value` or `$value`. The spelling it was written with decides
which entries hold its type and its description, and it is written back in the same spelling. Entries
without a meaning here are extensions and are carried along as they are; so are a type, a description
or an original that is not a string.
-/

namespace DesignTokens

/-- The spelling of the entries of a token. -/
inductive KeyStyle where
  /-- `value`, `type`, `description`. -/
  | plain
  /-- `$value`, `$type`, `$description`. -/
  | dollar
  deriving DecidableEq, Repr

namespace KeyStyle

def valueKey : KeyStyle → String
  | .plain => "value"
  | .dollar => "$value"

def typeKey : KeyStyle → String
  | .plain => "type"
  | .dollar => "$type"

def descriptionKey : KeyStyle → String
  | .plain => "description"
  | .dollar => "$description"

/-- The spelling of an object that is a token; `$value` goes before `value`. -/
def of? (entries : KeyedList Json) : Option KeyStyle :=
  if KeyedList.contains entries dollar.valueKey then some .dollar
  else if KeyedList.contains entries plain.valueKey then some .plain
  else none

end KeyStyle

/-- A leaf of a token tree. -/
structure Token where
  value : Json
  type : Option String
  description : Option String
  /-- The text of the value before it was resolved. -/
  original : Option String
  /-- All other entries. -/
  extensions : KeyedList Json
  style : KeyStyle
  deriving DecidableEq

namespace Token

/-- The entry with the text of the value before it was resolved. -/
def originalKey : String := "original"

/-- A token with nothing but a value. -/
def of (value : Json) : Token := ⟨value, none, none, none, [], .plain⟩

/-- The text under a key, and the entries without it; an entry that is not a string stays. -/
def takeText (entries : KeyedList Json) (key : String) : Option String × KeyedList Json :=
  match KeyedList.get? entries key with
  | some (.string text) => (some text, KeyedList.erase entries key)
  | _ => (none, entries)

/-- Whether an object is a token. -/
def isToken (entries : KeyedList Json) : Bool := (KeyStyle.of? entries).isSome

/-- The token that an object is. -/
def ofEntries? (entries : KeyedList Json) : Option Token :=
  match KeyStyle.of? entries with
  | none => none
  | some style =>
    let value := (KeyedList.get? entries style.valueKey).getD .null
    let rest := KeyedList.erase entries style.valueKey
    let (type, rest) := takeText rest style.typeKey
    let (description, rest) := takeText rest style.descriptionKey
    let (original, rest) := takeText rest originalKey
    some ⟨value, type, description, original, rest, style⟩

/-- The entries with a text under a key, if there is a text. -/
def putText (entries : KeyedList Json) (key : String) (text : Option String) : KeyedList Json :=
  match text with
  | some text => KeyedList.insert entries key (.string text)
  | none => entries

/-- The entries of the object that a token is. -/
def toEntries (t : Token) : KeyedList Json :=
  let entries := KeyedList.insert t.extensions t.style.valueKey t.value
  let entries := putText entries t.style.typeKey t.type
  let entries := putText entries t.style.descriptionKey t.description
  putText entries originalKey t.original

def toJson (t : Token) : Json := .object t.toEntries

/-- The value of a token when it is a text. -/
def text? (t : Token) : Option String := t.value.text?

end Token

end DesignTokens
