import DesignTokens.Json.Reader
import DesignTokens.Proofs.KeyedList

/-!
# Readers answer with canonical values

The objects in what a text is read as are keyed lists, at every depth: entries are put in order as they
come, and of two with one key the last stays. Whether a value is canonical can be decided.
-/

namespace DesignTokens.Json

open Text

section Decide

mutual

/-- Whether a value is canonical. -/
def decideCanonical : (value : Json) → Decidable value.Canonical
  | .null => .isTrue trivial
  | .bool _ => .isTrue trivial
  | .number _ => .isTrue trivial
  | .string _ => .isTrue trivial
  | .array items => decideCanonicalItems items
  | .object entries =>
    have := decideCanonicalEntries entries
    inferInstanceAs (Decidable (KeyedList.Sorted entries ∧ CanonicalEntries entries))

/-- Whether every one of some values is canonical. -/
def decideCanonicalItems : (items : List Json) → Decidable (CanonicalItems items)
  | [] => .isTrue trivial
  | item :: items =>
    have := decideCanonical item
    have := decideCanonicalItems items
    inferInstanceAs (Decidable (item.Canonical ∧ CanonicalItems items))

/-- Whether the value of every entry is canonical. -/
def decideCanonicalEntries : (entries : List (String × Json)) → Decidable (CanonicalEntries entries)
  | [] => .isTrue trivial
  | (_, value) :: entries =>
    have := decideCanonical value
    have := decideCanonicalEntries entries
    inferInstanceAs (Decidable (value.Canonical ∧ CanonicalEntries entries))

end

instance (value : Json) : Decidable value.Canonical := decideCanonical value

end Decide

section Read

theorem bind_eq_ok {ε α β : Type} {x : Except ε α} {f : α → Except ε β} {b : β}
    (h : x >>= f = .ok b) : ∃ a, x = .ok a ∧ f a = .ok b := by
  cases x with
  | error e => simp [bind, Except.bind] at h
  | ok a => exact ⟨a, rfl, h⟩

theorem canonicalEntries_insert {entries : KeyedList Json} {value : Json}
    (h : CanonicalEntries entries) (hv : value.Canonical) (key : String) :
    CanonicalEntries (KeyedList.insert entries key value) := by
  induction entries with
  | nil => simp [KeyedList.insert, CanonicalEntries, hv]
  | cons entry entries ih =>
    obtain ⟨first, rest⟩ := h
    unfold KeyedList.insert
    split
    · exact ⟨hv, first, rest⟩
    · split
      · exact ⟨hv, rest⟩
      · exact ⟨first, ih rest⟩

theorem canonicalEntries_ofList {pairs : List (String × Json)} (h : CanonicalEntries pairs) :
    CanonicalEntries (KeyedList.ofList pairs) := by
  have onto (entries : KeyedList Json) (he : CanonicalEntries entries) :
      CanonicalEntries
        (pairs.foldl (fun entries pair => KeyedList.insert entries pair.1 pair.2) entries) := by
    induction pairs generalizing entries with
    | nil => exact he
    | cons pair pairs ih => exact ih h.2 _ (canonicalEntries_insert he h.1 _)
  exact onto [] trivial

/-- Behind a character there is less. -/
theorem length_lt_of_skip {s rest : List Char} {c : Char} (h : skip s = c :: rest) :
    rest.length < s.length := by
  have start := length_skip_le s
  simp only [h, List.length_cons] at start
  omega

mutual

theorem canonical_readValue {depth : Nat} {s : List Char} {found : Found Json s}
    (h : readValue depth s = .ok found) : found.value.Canonical := by
  unfold readValue at h
  dsimp only at h
  split at h
  · simp at h
  · obtain rfl := Except.ok.inj h
    exact trivial
  · obtain rfl := Except.ok.inj h
    exact trivial
  · obtain rfl := Except.ok.inj h
    exact trivial
  · obtain ⟨text, -, h⟩ := bind_eq_ok h
    obtain rfl := Except.ok.inj h
    exact trivial
  · rename_i rest hs
    split at h
    · simp at h
    · split at h
      · obtain rfl := Except.ok.inj h
        exact trivial
      · obtain ⟨items, hi, h⟩ := bind_eq_ok h
        obtain rfl := Except.ok.inj h
        have shorter := length_lt_of_skip hs
        exact canonical_readItems hi
  · rename_i rest hs
    split at h
    · simp at h
    · split at h
      · obtain rfl := Except.ok.inj h
        exact ⟨KeyedList.sorted_nil, trivial⟩
      · obtain ⟨entries, he, h⟩ := bind_eq_ok h
        obtain rfl := Except.ok.inj h
        have shorter := length_lt_of_skip hs
        exact ⟨KeyedList.sorted_ofList _, canonicalEntries_ofList (canonical_readEntries he)⟩
  · split at h
    · obtain ⟨n, -, h⟩ := bind_eq_ok h
      obtain rfl := Except.ok.inj h
      exact trivial
    · simp at h
termination_by (s.length, 0)
decreasing_by all_goals exact Prod.Lex.left _ _ shorter

theorem canonical_readItems {depth : Nat} {s : List Char} {found : Found (List Json) s}
    (h : readItems depth s = .ok found) : CanonicalItems found.value := by
  unfold readItems at h
  obtain ⟨item, hi, h⟩ := bind_eq_ok h
  dsimp only at h
  split at h
  · rename_i rest hr
    obtain ⟨items, hs, h⟩ := bind_eq_ok h
    obtain rfl := Except.ok.inj h
    have shorter := Nat.lt_trans (length_lt_of_skip hr) item.shorter
    exact ⟨canonical_readValue hi, canonical_readItems hs⟩
  · obtain rfl := Except.ok.inj h
    exact ⟨canonical_readValue hi, trivial⟩
  · simp at h
  · simp at h
termination_by (s.length, 1)
decreasing_by
  · exact Prod.Lex.right _ Nat.zero_lt_one
  · exact Prod.Lex.left _ _ shorter
  · exact Prod.Lex.right _ Nat.zero_lt_one

theorem canonical_readEntries {depth : Nat} {s : List Char}
    {found : Found (List (String × Json)) s} (h : readEntries depth s = .ok found) :
    CanonicalEntries found.value := by
  unfold readEntries at h
  dsimp only at h
  split at h
  · rename_i rest hs
    obtain ⟨key, -, h⟩ := bind_eq_ok h
    split at h
    · rename_i rest' hk
      obtain ⟨value, hv, h⟩ := bind_eq_ok h
      -- the rest behind the key and the colon
      have shorter : rest'.length < s.length :=
        Nat.lt_trans (length_lt_of_skip hk) (Nat.lt_trans key.shorter (length_lt_of_skip hs))
      split at h
      · rename_i rest hr
        obtain ⟨entries, he, h⟩ := bind_eq_ok h
        obtain rfl := Except.ok.inj h
        have later := Nat.lt_trans (Nat.lt_trans (length_lt_of_skip hr) value.shorter) shorter
        exact ⟨canonical_readValue hv, canonical_readEntries he⟩
      · obtain rfl := Except.ok.inj h
        exact ⟨canonical_readValue hv, trivial⟩
      · simp at h
      · simp at h
    · simp at h
    · simp at h
  · simp at h
  · simp at h
termination_by (s.length, 1)
decreasing_by
  · exact Prod.Lex.left _ _ shorter
  · exact Prod.Lex.left _ _ later
  · exact Prod.Lex.left _ _ shorter

end

/-- What a text is read as is canonical. -/
theorem canonical_of_parse {text : String} {value : Json} (h : parse text = .ok value) :
    value.Canonical := by
  unfold parse at h
  obtain ⟨found, hf, h⟩ := bind_eq_ok h
  split at h
  · obtain rfl := Except.ok.inj h
    exact canonical_readValue hf
  · simp at h

end Read

end DesignTokens.Json
