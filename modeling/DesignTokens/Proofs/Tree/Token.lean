import DesignTokens.Proofs.KeyedList
import DesignTokens.Tree.Token

/-!
# The entries of a token

A token holds the entries of its object in two parts: those that it has fields for, and the extensions.
What is found in the object, under any key, is what the fields hold, or else what is found in the
extensions; and the same is found in what a token is written as. Since the object is a keyed list,
reading it as a token and writing the token gives it back.
-/

namespace DesignTokens

open KeyedList (Sorted get? contains erase insert)

variable {entries : KeyedList Json}

/-- The keys of a token are four different ones. -/
theorem KeyStyle.keys_nodup (style : KeyStyle) :
    [style.valueKey, style.typeKey, style.descriptionKey, Token.originalKey].Nodup := by
  cases style <;> decide

/-- An object that is a token has a value under the key of its spelling. -/
theorem KeyStyle.contains_of_of? {style : KeyStyle} (h : KeyStyle.of? entries = some style) :
    contains entries style.valueKey = true := by
  unfold of? at h
  split at h
  · rename_i hc
    obtain rfl := Option.some.inj h
    exact hc
  · split at h
    · rename_i hc
      obtain rfl := Option.some.inj h
      exact hc
    · simp at h

namespace Token

/-- The entry that the fields of a token hold under a key. -/
def field? (t : Token) (key : String) : Option Json :=
  if key = t.style.valueKey then some t.value
  else if key = t.style.typeKey then t.type.map .string
  else if key = t.style.descriptionKey then t.description.map .string
  else if key = originalKey then t.original.map .string
  else none

section Text

variable {text : Option String} {key : String} {rest : KeyedList Json}

theorem takeText_of_text {text : String} (h : get? entries key = some (.string text)) :
    takeText entries key = (some text, erase entries key) := by
  rw [takeText, h]

theorem takeText_of_not_text (h : ∀ text, get? entries key ≠ some (.string text)) :
    takeText entries key = (none, entries) := by
  unfold takeText
  split
  · rename_i text ht
    exact absurd ht (h text)
  · rfl

theorem sorted_takeText (h : takeText entries key = (text, rest)) (hs : Sorted entries) :
    Sorted rest := by
  by_cases ht : ∃ text, get? entries key = some (.string text)
  · obtain ⟨_, ht⟩ := ht
    obtain ⟨-, rfl⟩ := Prod.mk.inj ((takeText_of_text ht).symm.trans h)
    exact KeyedList.sorted_erase hs key
  · obtain ⟨-, rfl⟩ := Prod.mk.inj ((takeText_of_not_text (not_exists.1 ht)).symm.trans h)
    exact hs

/-- A text that is taken and what is left make up what there was. -/
theorem get?_of_takeText (h : takeText entries key = (text, rest)) (hs : Sorted entries)
    (k : String) :
    get? entries k = if k = key then (text.map .string <|> get? rest k) else get? rest k := by
  by_cases ht : ∃ text, get? entries key = some (.string text)
  · obtain ⟨_, ht⟩ := ht
    obtain ⟨rfl, rfl⟩ := Prod.mk.inj ((takeText_of_text ht).symm.trans h)
    rw [KeyedList.get?_erase hs]
    by_cases hk : k = key
    · simp [hk, ht]
    · simp [hk, Ne.symm hk]
  · obtain ⟨rfl, rfl⟩ := Prod.mk.inj ((takeText_of_not_text (not_exists.1 ht)).symm.trans h)
    simp

/-- No text is left where one is taken. -/
theorem text?_of_takeText (h : takeText entries key = (text, rest)) (hs : Sorted entries) :
    (get? rest key).bind Json.text? = none := by
  by_cases ht : ∃ text, get? entries key = some (.string text)
  · obtain ⟨_, ht⟩ := ht
    obtain ⟨-, rfl⟩ := Prod.mk.inj ((takeText_of_text ht).symm.trans h)
    simp [KeyedList.get?_erase hs]
  · obtain ⟨-, rfl⟩ := Prod.mk.inj ((takeText_of_not_text (not_exists.1 ht)).symm.trans h)
    cases hg : get? entries key with
    | none => rfl
    | some value =>
      cases value with
      | string text => exact absurd ⟨text, hg⟩ ht
      | _ => rfl

theorem sorted_putText (h : Sorted entries) (key : String) (text : Option String) :
    Sorted (putText entries key text) := by
  cases text with
  | none => exact h
  | some text => exact KeyedList.sorted_insert h key _

theorem get?_putText (entries : KeyedList Json) (key : String) (text : Option String) (k : String) :
    get? (putText entries key text) k =
      if k = key then (text.map .string <|> get? entries k) else get? entries k := by
  cases text with
  | none => simp [putText]
  | some text =>
    rw [putText, KeyedList.get?_insert]
    by_cases h : k = key
    · simp [h]
    · simp [h, Ne.symm h]

end Text

section Write

variable (t : Token)

/-- In what a token is written as, the fields come before the extensions. -/
theorem get?_toEntries (key : String) :
    get? t.toEntries key = (t.field? key <|> get? t.extensions key) := by
  have keys := t.style.keys_nodup
  simp only [List.nodup_cons, List.mem_cons, List.not_mem_nil, or_false, not_or] at keys
  obtain ⟨⟨vt, vd, vo⟩, ⟨td, tor⟩, dor, -⟩ := keys
  simp only [toEntries, get?_putText, KeyedList.get?_insert, field?]
  by_cases hv : key = t.style.valueKey
  · subst hv
    simp [vt, vd, vo]
  by_cases ht : key = t.style.typeKey
  · subst ht
    simp [td, tor, vt, Ne.symm vt]
  by_cases hd : key = t.style.descriptionKey
  · subst hd
    simp [dor, vd, Ne.symm vd, Ne.symm td]
  by_cases ho : key = originalKey
  · subst ho
    simp [vo, Ne.symm vo, Ne.symm tor, Ne.symm dor]
  · simp [hv, ht, hd, ho, Ne.symm hv]

theorem sorted_toEntries (h : Sorted t.extensions) : Sorted t.toEntries := by
  unfold toEntries
  repeat apply sorted_putText
  exact KeyedList.sorted_insert h _ _

end Write

section Read

variable {t : Token}

/-- A token takes its fields out of the object one after another; the rest are its extensions. -/
theorem of_ofEntries? (h : ofEntries? entries = some t) :
    KeyStyle.of? entries = some t.style ∧ get? entries t.style.valueKey = some t.value ∧
      ∃ rest rest',
        takeText (erase entries t.style.valueKey) t.style.typeKey = (t.type, rest) ∧
        takeText rest t.style.descriptionKey = (t.description, rest') ∧
        takeText rest' originalKey = (t.original, t.extensions) := by
  rw [ofEntries?] at h
  cases hs : KeyStyle.of? entries with
  | none => simp [hs] at h
  | some style =>
    obtain ⟨value, hv⟩ := Option.isSome_iff_exists.1 (KeyStyle.contains_of_of? hs)
    cases ht : takeText (erase entries style.valueKey) style.typeKey with
    | mk type rest =>
      cases hd : takeText rest style.descriptionKey with
      | mk description rest' =>
        cases ho : takeText rest' originalKey with
        | mk original extensions =>
          simp only [hs, hv, ht, hd, ho] at h
          obtain rfl := Option.some.inj h
          exact ⟨rfl, hv, rest, rest', ht, hd, ho⟩

/-- An object that is a token is read as one. -/
theorem isToken_iff : isToken entries = true ↔ ∃ t, ofEntries? entries = some t := by
  rw [isToken, Option.isSome_iff_exists]
  constructor
  · rintro ⟨style, hs⟩
    simp only [ofEntries?, hs]
    exact ⟨_, rfl⟩
  · rintro ⟨t, ht⟩
    exact ⟨t.style, (of_ofEntries? ht).1⟩

theorem sorted_extensions (hs : Sorted entries) (h : ofEntries? entries = some t) :
    Sorted t.extensions := by
  obtain ⟨-, -, rest, rest', ht, hd, ho⟩ := of_ofEntries? h
  exact sorted_takeText ho (sorted_takeText hd (sorted_takeText ht (KeyedList.sorted_erase hs _)))

/-- In an object that is a token, the fields come before the extensions. -/
theorem get?_of_ofEntries? (hs : Sorted entries) (h : ofEntries? entries = some t) (key : String) :
    get? entries key = (t.field? key <|> get? t.extensions key) := by
  obtain ⟨-, hv, rest, rest', ht, hd, ho⟩ := of_ofEntries? h
  have keys := t.style.keys_nodup
  simp only [List.nodup_cons, List.mem_cons, List.not_mem_nil, or_false, not_or] at keys
  obtain ⟨-, ⟨td, tor⟩, dor, -⟩ := keys
  have s₀ := KeyedList.sorted_erase hs t.style.valueKey
  have s₁ := sorted_takeText ht s₀
  have s₂ := sorted_takeText hd s₁
  rw [field?]
  by_cases kv : key = t.style.valueKey
  · simp [kv, hv]
  have others : get? entries key = get? (erase entries t.style.valueKey) key := by
    simp [KeyedList.get?_erase hs, Ne.symm kv]
  rw [others, get?_of_takeText ht s₀, get?_of_takeText hd s₁, get?_of_takeText ho s₂]
  by_cases kt : key = t.style.typeKey
  · subst kt
    simp [kv, td, tor]
  by_cases kd : key = t.style.descriptionKey
  · subst kd
    simp [kv, kt, dor]
  by_cases ko : key = originalKey
  · subst ko
    simp [kv, kt, kd]
  · simp [kv, kt, kd, ko]

/-- A token is written as the object that it was read from. -/
theorem toEntries_of_ofEntries? (hs : Sorted entries) (h : ofEntries? entries = some t) :
    t.toEntries = entries := by
  apply KeyedList.ext (t.sorted_toEntries (sorted_extensions hs h)) hs
  intro key
  rw [get?_toEntries, get?_of_ofEntries? hs h]

end Read

end Token

end DesignTokens
