import DesignTokens.KeyedList

/-!
# JSON values

Token values keep the JSON type they were written with, and an integer stays apart from a double:
`1` and `1.0` are different values and are written back as they came.

An object is a keyed list. `Canonical` says so of a value at every depth; readers produce canonical
values only.
-/

namespace DesignTokens

/-- A JSON number: a whole number that fits into sixty-four bits, or a finite double. -/
inductive Json.Number where
  | integer (n : Int)
  | real (x : Float)
  deriving DecidableEq

/-- A JSON value. -/
inductive Json where
  | null
  | bool (b : Bool)
  | number (n : Json.Number)
  | string (s : String)
  | array (items : List Json)
  | object (entries : List (String × Json))

namespace Json

/-- The double that a number stands for. -/
def Number.toFloat : Number → Float
  | .integer n => if n < 0 then -(Float.ofNat n.natAbs) else Float.ofNat n.natAbs
  | .real x => x

/-- The kind of a value, with its article. -/
def kind : Json → String
  | .null => "null"
  | .bool _ => "a boolean"
  | .number _ => "a number"
  | .string _ => "a string"
  | .array _ => "an array"
  | .object _ => "an object"

/-- The text of a string value. -/
def text? : Json → Option String
  | .string s => some s
  | _ => none

mutual

/-- Whether two values are the same. -/
def same : Json → Json → Bool
  | .null, .null => true
  | .bool a, .bool b => a == b
  | .number a, .number b => a == b
  | .string a, .string b => a == b
  | .array a, .array b => sameItems a b
  | .object a, .object b => sameEntries a b
  | _, _ => false

/-- Whether two lists of values are the same. -/
def sameItems : List Json → List Json → Bool
  | [], [] => true
  | a :: as, b :: bs => same a b && sameItems as bs
  | _, _ => false

/-- Whether two keyed lists of values are the same. -/
def sameEntries : List (String × Json) → List (String × Json) → Bool
  | [], [] => true
  | (k, a) :: as, (l, b) :: bs => k == l && same a b && sameEntries as bs
  | _, _ => false

end

mutual

theorem same_iff : (a b : Json) → (same a b = true ↔ a = b)
  | .null, b => by cases b <;> simp [same]
  | .bool _, b => by cases b <;> simp [same]
  | .number _, b => by cases b <;> simp [same]
  | .string _, b => by cases b <;> simp [same]
  | .array as, b => by
    cases b <;> simp [same]
    exact sameItems_iff as _
  | .object as, b => by
    cases b <;> simp [same]
    exact sameEntries_iff as _

theorem sameItems_iff : (as bs : List Json) → (sameItems as bs = true ↔ as = bs)
  | [], bs => by cases bs <;> simp [sameItems]
  | a :: as, bs => by
    cases bs <;> simp [sameItems]
    rw [same_iff a, sameItems_iff as]

theorem sameEntries_iff : (as bs : List (String × Json)) → (sameEntries as bs = true ↔ as = bs)
  | [], bs => by cases bs <;> simp [sameEntries]
  | (k, a) :: as, bs => by
    cases bs with
    | nil => simp [sameEntries]
    | cons b bs =>
      obtain ⟨l, b⟩ := b
      simp [sameEntries]
      rw [same_iff a, sameEntries_iff as]

end

instance : DecidableEq Json := fun a b => decidable_of_iff _ (same_iff a b)

instance : Inhabited Json := ⟨.null⟩

mutual

/-- The objects inside a value, at every depth, are keyed lists. -/
def Canonical : Json → Prop
  | .array items => CanonicalItems items
  | .object entries => KeyedList.Sorted entries ∧ CanonicalEntries entries
  | _ => True

/-- `Canonical` of each value. -/
def CanonicalItems : List Json → Prop
  | [] => True
  | item :: items => Canonical item ∧ CanonicalItems items

/-- `Canonical` of the value of each entry. -/
def CanonicalEntries : List (String × Json) → Prop
  | [] => True
  | (_, value) :: entries => Canonical value ∧ CanonicalEntries entries

end

end Json

end DesignTokens
