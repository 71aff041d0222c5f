import DesignTokens.Proofs.Engine.Independence
import DesignTokens.Proofs.Tree.RoundTrip

/-!
# What a new value changes in a document

A token with a new value is written as the object that it was read from, with two entries revised: its
value, and its original, under which the old text is put unless a text is there already. What is there
and is no text does not stay.

A document whose tokens are replaced differs from the document as it was inside the objects that are
tokens, and nowhere else.
-/

namespace DesignTokens

open KeyedList (Sorted get?)

namespace Token

variable {entries revised : KeyedList Json} {t : Token} {style : KeyStyle} {old new : Json}

/-- The entries of a token have been revised for a new value. -/
structure Revision (style : KeyStyle) (old new : Json) (entries revised : KeyedList Json) :
    Prop where
  spelled : KeyStyle.of? entries = some style
  held : get? entries style.valueKey = some old
  sorted : Sorted revised
  value : get? revised style.valueKey = some new
  /-- A token whose value stays is left alone. -/
  same : new = old → revised = entries
  /-- A text under the original stays there. -/
  originalKept : ∀ text, get? entries originalKey = some (.string text) →
    get? revised originalKey = some (.string text)
  /-- Anything else makes room for the old value, which is a text. -/
  originalPut : new ≠ old → (get? entries originalKey).bind Json.text? = none →
    ∃ text, old = .string text ∧ get? revised originalKey = some (.string text)
  /-- All other entries stay. -/
  others : ∀ key, key ≠ style.valueKey → key ≠ originalKey → get? revised key = get? entries key

section Fields

variable (t)

theorem field?_valueKey : t.field? t.style.valueKey = some t.value := if_pos rfl

theorem field?_originalKey : t.field? originalKey = t.original.map .string := by
  obtain ⟨value, type, description, original, extensions, style⟩ := t
  cases style <;> rfl

end Fields

/-- The original of a token is the text that its object has there. -/
theorem original_of_ofEntries? (hs : Sorted entries) (h : ofEntries? entries = some t) :
    t.original = (get? entries originalKey).bind Json.text? := by
  obtain ⟨-, -, rest, rest', ht, hd, ho⟩ := of_ofEntries? h
  have left := text?_of_takeText ho
    (sorted_takeText hd (sorted_takeText ht (KeyedList.sorted_erase hs _)))
  rw [get?_of_ofEntries? hs h, field?_originalKey]
  cases t.original with
  | none => exact left.symm
  | some text => rfl

/-- A token with a new value is its object, revised. -/
theorem revision_withResolved (hs : Sorted entries) (h : ofEntries? entries = some t)
    (hn : new = t.value ∨ ∃ text, t.value = .string text) :
    Revision t.style t.value new entries (t.withResolved new).toEntries := by
  have spelled := (of_ofEntries? h).1
  have held := (of_ofEntries? h).2.1
  by_cases same : new = t.value
  · rw [withResolved_self same, toEntries_of_ofEntries? hs h]
    exact ⟨spelled, held, hs, same ▸ held, fun _ => rfl, fun _ ht => ht, fun hc => absurd same hc,
      fun _ _ _ => rfl⟩
  · obtain ⟨text, hv⟩ := hn.resolve_left same
    have extensions : Sorted t.extensions := sorted_extensions hs h
    rw [withResolved_of_text hv same]
    refine ⟨spelled, held, sorted_toEntries _ extensions, ?value, fun hc => absurd hc same, ?kept,
      ?put, ?others⟩
    case value =>
      rw [get?_toEntries]
      exact congrArg (· <|> _) (field?_valueKey _)
    case kept =>
      intro original ho
      rw [get?_toEntries, field?_originalKey, original_of_ofEntries? hs h, ho]
      rfl
    case put =>
      intro _ ho
      refine ⟨text, hv, ?_⟩
      rw [get?_toEntries, field?_originalKey, original_of_ofEntries? hs h, ho]
      rfl
    case others =>
      intro key kv ko
      rw [get?_toEntries, get?_of_ofEntries? hs h]
      simp [field?, kv, ko]

end Token

namespace Json

mutual

/-- One value under a key is like another: the objects that are tokens are related, and all else is
equal, at every depth. -/
def Tokenwise (R : KeyedList Json → KeyedList Json → Prop) (key : String) : Json → Json → Prop
  | .object before, .object after =>
    if isMetadataKey key then after = before
    else if Token.isToken before then R before after
    else TokenwiseAll R before after
  | before, after => after = before

/-- The entries of one object are like those of another, under the same keys. -/
def TokenwiseAll (R : KeyedList Json → KeyedList Json → Prop) :
    List (String × Json) → List (String × Json) → Prop
  | [], [] => True
  | (key, before) :: entries, (key', after) :: others =>
    key' = key ∧ Tokenwise R key before after ∧ TokenwiseAll R entries others
  | _, _ => False

end

end Json

namespace Node

variable {R : KeyedList Json → KeyedList Json → Prop} {f : Token → Token}

mutual

/-- With its tokens replaced, a node is written as the value that it was read from, but for tokens. -/
theorem tokenwise_mapTokens
    (h : ∀ entries t, Sorted entries → Token.ofEntries? entries = some t →
      R entries (f t).toEntries) (key : String) :
    (value : Json) → value.Canonical → value.Tokenwise R key ((ofJson key value).mapTokens f).toJson
  | .object entries, hc => by
    rw [ofJson]
    split
    · rename_i hm
      rw [mapTokens, toJson, Json.Tokenwise, if_pos hm]
    · rename_i hm
      cases ht : Token.ofEntries? entries with
      | some t =>
        have isToken := Token.isToken_iff.2 ⟨t, ht⟩
        rw [mapTokens, toJson, Token.toJson, Json.Tokenwise, if_neg hm, if_pos isToken]
        exact h entries t hc.1 ht
      | none =>
        have isGroup : ¬ Token.isToken entries = true := by
          rw [Token.isToken_iff, ht]
          simp
        rw [mapTokens, toJson, Json.Tokenwise, if_neg hm, if_neg isGroup]
        exact tokenwise_mapAll h entries hc.2
  | .null, _ => rfl
  | .bool _, _ => rfl
  | .number _, _ => rfl
  | .string _, _ => rfl
  | .array _, _ => rfl

theorem tokenwise_mapAll
    (h : ∀ entries t, Sorted entries → Token.ofEntries? entries = some t →
      R entries (f t).toEntries) :
    (entries : List (String × Json)) → Json.CanonicalEntries entries →
      Json.TokenwiseAll R entries (toEntries (mapAll f (ofEntries entries)))
  | [], _ => trivial
  | (key, value) :: entries, hc =>
    ⟨rfl, tokenwise_mapTokens h key value hc.1, tokenwise_mapAll h entries hc.2⟩

end

end Node

end DesignTokens
