import DesignTokens.Catalog.Arguments
import DesignTokens.Expression.Call

/-!
# The function catalog

A catalog holds functions under their names, each with the record it is listed by. A name can be called
only when it is a name of the expression language, and a signature has to start with the call of its
name, so `register` refuses anything else and then changes nothing.

Listings go through the families in their order and through the names within a family.
-/

namespace DesignTokens

/-- The families that functions are listed by. -/
inductive FunctionFamily where
  | color
  | contrast
  | typography
  | math
  | custom
  deriving DecidableEq, Repr

namespace FunctionFamily

def name : FunctionFamily → String
  | .color => "color"
  | .contrast => "contrast"
  | .typography => "typography"
  | .math => "math"
  | .custom => "custom"

/-- All families, in the order they are listed. -/
def all : List FunctionFamily := [.color, .contrast, .typography, .math, .custom]

/-- The family of a name or another name of it, in any letter case. -/
def parse? (text : String) : Option FunctionFamily :=
  let text := text.toLower
  if text = "colour" then some .color
  else if text = "accessibility" then some .contrast
  else if text = "type" then some .typography
  else all.find? (·.name == text)

end FunctionFamily

/-- The record that a function is listed by. -/
structure FunctionInfo where
  name : String
  family : FunctionFamily
  signature : String
  description : String
  deriving DecidableEq, Repr

/-- What a function does: arguments without references or calls in, a literal text out. -/
abbrev FunctionBody := Arguments → Settings → Except FunctionError String

/-- A function of a catalog. -/
structure CatalogEntry where
  info : FunctionInfo
  body : FunctionBody

/-- Why a function is not registered. -/
inductive CatalogError where
  | invalidName (name : String)
  | signatureMismatch (name signature : String)
  deriving DecidableEq, Repr

/-- The wording of a refusal. -/
def CatalogError.message : CatalogError → String
  | .invalidName name =>
    "'" ++ name ++ "' is not a valid function name (expected an identifier such as 'myTint')"
  | .signatureMismatch name signature =>
    "function signature for '" ++ name ++ "' must start with '" ++ name ++ "(': got '" ++
      signature ++ "'"

/-- Functions under their names. -/
structure Catalog where
  entries : KeyedList CatalogEntry
  /-- How many functions were ever registered. -/
  registrations : Nat

namespace Catalog

/-- The catalog without functions. -/
def empty : Catalog := ⟨[], 0⟩

/-- The catalog with a function under its name, in place of the one that was there. -/
def insert (c : Catalog) (info : FunctionInfo) (body : FunctionBody) : Catalog :=
  ⟨KeyedList.insert c.entries info.name ⟨info, body⟩, c.registrations + 1⟩

/-- The catalog with a function under its name, if the name and the signature are good ones. -/
def register (c : Catalog) (info : FunctionInfo) (body : FunctionBody) :
    Except CatalogError Catalog :=
  if !Call.isName info.name.toList then .error (.invalidName info.name)
  else if (Text.afterStart? (info.name.toList ++ ['(']) info.signature.toList).isNone then
    .error (.signatureMismatch info.name info.signature)
  else .ok (c.insert info body)

/-- What the function of a name does. -/
def get? (c : Catalog) (name : String) : Option FunctionBody :=
  (KeyedList.get? c.entries name).map (·.body)

/-- The record of the function of a name. -/
def info? (c : Catalog) (name : String) : Option FunctionInfo :=
  (KeyedList.get? c.entries name).map (·.info)

/-- Whether there is a function of a name. -/
def contains (c : Catalog) (name : String) : Bool := KeyedList.contains c.entries name

/-- Whether there is a function of a name, and the catalog without it. -/
def unregister (c : Catalog) (name : String) : Bool × Catalog :=
  (c.contains name, { c with entries := KeyedList.erase c.entries name })

/-- The answer of the function of a name, if there is one. -/
def call? (c : Catalog) (name : String) (args : List String) (settings : Settings) :
    Option (Except FunctionError String) :=
  (c.get? name).map fun body => body ⟨args⟩ settings

/-- How many functions there are. -/
def size (c : Catalog) : Nat := c.entries.length

/-- The records of the functions of a family, in the order of their names. -/
def listFamily (c : Catalog) (family : FunctionFamily) : List FunctionInfo :=
  (c.entries.map (·.2.info)).filter fun info => info.family == family

/-- The records of all functions, family by family. -/
def list (c : Catalog) : List FunctionInfo := FunctionFamily.all.flatMap c.listFamily

/-- How many functions each family has; a family without functions is left out. -/
def familySizes (c : Catalog) : List (FunctionFamily × Nat) :=
  (FunctionFamily.all.map fun family => (family, (c.listFamily family).length)).filter
    fun (_, n) => 0 < n

end Catalog

end DesignTokens
