import DesignTokens.Proofs.Json.Canonical
import DesignTokens.Proofs.Tree.Token
import DesignTokens.Tree.Basic

/-!
# Trees are written as they were read

Every object is a tree, and the tree is written as this object. Groups and raw entries keep all that
they were read from, key by key; a token is written as its object since the object is a keyed list.
-/

namespace DesignTokens

namespace Node

mutual

/-- The node that a canonical value is under a key is written as this value. -/
theorem toJson_ofJson (key : String) : (value : Json) → value.Canonical →
    (ofJson key value).toJson = value
  | .object entries, h => by
    rw [ofJson]
    split
    · rfl
    · cases ht : Token.ofEntries? entries with
      | some t => exact congrArg Json.object (Token.toEntries_of_ofEntries? h.1 ht)
      | none => exact congrArg Json.object (toEntries_ofEntries entries h.2)
  | .null, _ => rfl
  | .bool _, _ => rfl
  | .number _, _ => rfl
  | .string _, _ => rfl
  | .array _, _ => rfl

theorem toEntries_ofEntries : (entries : List (String × Json)) → Json.CanonicalEntries entries →
    toEntries (ofEntries entries) = entries
  | [], _ => rfl
  | (key, value) :: entries, h => by
    rw [ofEntries, toEntries, toJson_ofJson key value h.1, toEntries_ofEntries entries h.2]

end

end Node

namespace Tree

theorem ofJson_object (entries : KeyedList Json) :
    ofJson (.object entries) = .ok ⟨Node.ofEntries entries⟩ := rfl

/-- A tree that a text writes is written as what the text is read as. -/
theorem parse_toJson {text : String} {tree : Tree} (h : parse text = .ok tree) :
    Json.parse text = .ok tree.toJson := by
  rw [parse] at h
  cases hp : Json.parse text with
  | error e => simp [hp] at h
  | ok value =>
    have canonical := Json.canonical_of_parse hp
    rw [hp] at h
    cases value with
    | object entries =>
      obtain rfl := Except.ok.inj h
      rw [toJson, Node.toEntries_ofEntries entries canonical.2]
    | _ => simp [ofJson] at h

/-- Reading an object and writing it loses nothing. As a tree, every object is written back as it is,
with all its entries at every depth; and so is an object that is a token, read as one. -/
theorem written_as_read (entries : KeyedList Json) (h : (Json.object entries).Canonical) :
    (∃ tree, ofJson (.object entries) = .ok tree ∧ tree.toJson = .object entries) ∧
      (Token.isToken entries = true →
        ∃ t, Token.ofEntries? entries = some t ∧ t.toJson = .object entries) := by
  constructor
  · exact ⟨_, ofJson_object entries, congrArg Json.object (Node.toEntries_ofEntries entries h.2)⟩
  · intro ht
    obtain ⟨t, ht⟩ := Token.isToken_iff.1 ht
    exact ⟨t, ht, congrArg Json.object (Token.toEntries_of_ofEntries? h.1 ht)⟩

/-- An object with the values of both spellings, an original that is no text, and keys that no path can
follow. As a tree, all of it but the nested objects is raw. -/
def mixed : KeyedList Json :=
  [ ("", .object [("value", .null)]),
    ("$value", .string "red"),
    ("a.b", .object
      [ ("$type", .string "color"),
        ("c", .object [("type", .bool true), ("value", .string "blue")]) ]),
    ("original", .array []),
    ("value", .string "blue") ]

theorem written_as_read_mixed :
    (Json.object mixed).Canonical ∧ Token.isToken mixed = true ∧
      (∃ tree, ofJson (.object mixed) = .ok tree ∧ tree.toJson = .object mixed) ∧
        ∃ t, Token.ofEntries? mixed = some t ∧ t.toJson = .object mixed := by
  have canonical : (Json.object mixed).Canonical := by decide
  have token : Token.isToken mixed = true := by decide
  have read := written_as_read mixed canonical
  exact ⟨canonical, token, read.1, read.2 token⟩

end Tree

end DesignTokens
