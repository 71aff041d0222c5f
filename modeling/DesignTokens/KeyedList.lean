/-!
# Keyed lists

A keyed list holds values under texts, in increasing order of the texts by code point and with no
text twice. JSON objects, the children of a token group, the context of an event and the function
catalog are all keyed lists, so every listing this library prints comes out in one order.

The type is a plain list of pairs, because JSON values and tree nodes nest through it. `Sorted` says
when such a list is a keyed list, and `insert`, `erase` and `ofList` keep it one.
-/

namespace DesignTokens

/-- Values under texts, in increasing order of the texts. -/
abbrev KeyedList (α : Type) := List (String × α)

namespace KeyedList

variable {α β : Type}

/-- The keys strictly increase: no key stands twice, and the order is that of the code points. -/
def Sorted (entries : KeyedList α) : Prop := (entries.map Prod.fst).Pairwise (· < ·)

/-- The value under `key`. -/
def get? (entries : KeyedList α) (key : String) : Option α :=
  match entries with
  | [] => none
  | (k, v) :: rest => if k = key then some v else get? rest key

/-- Whether there is a value under `key`. -/
def contains (entries : KeyedList α) (key : String) : Bool := (get? entries key).isSome

/-- The list with `value` under `key`, in place of the value that was there. -/
def insert (entries : KeyedList α) (key : String) (value : α) : KeyedList α :=
  match entries with
  | [] => [(key, value)]
  | (k, v) :: rest =>
    if key < k then (key, value) :: (k, v) :: rest
    else if key = k then (key, value) :: rest
    else (k, v) :: insert rest key value

/-- The list without the value under `key`. -/
def erase (entries : KeyedList α) (key : String) : KeyedList α :=
  match entries with
  | [] => []
  | (k, v) :: rest => if k = key then rest else (k, v) :: erase rest key

/-- The keyed list of some pairs; of pairs with one key the last counts. -/
def ofList (pairs : List (String × α)) : KeyedList α :=
  pairs.foldl (fun entries (key, value) => insert entries key value) []

/-- The keys, in order. -/
def keys (entries : KeyedList α) : List String := entries.map Prod.fst

@[simp] theorem get?_nil (key : String) : get? ([] : KeyedList α) key = none := rfl

/-- A value that is put in is found under its key, and all else stays. -/
theorem get?_insert (entries : KeyedList α) (key : String) (value : α) (other : String) :
    get? (insert entries key value) other = if key = other then some value else get? entries other := by
  induction entries with
  | nil => simp [insert, get?]
  | cons entry rest ih =>
    obtain ⟨k, v⟩ := entry
    unfold insert
    split
    · simp [get?]
    · split
      · rename_i h
        subst h
        by_cases ho : key = other <;> simp [get?, ho]
      · rename_i h
        by_cases hk : k = other
        · subst hk
          simp [get?, h]
        · simp [get?, hk, ih]

theorem mem_keys_insert {entries : KeyedList α} {key : String} {value : α} {k : String} :
    k ∈ keys (insert entries key value) ↔ k = key ∨ k ∈ keys entries := by
  induction entries with
  | nil => simp [insert, keys]
  | cons entry rest ih =>
    obtain ⟨l, v⟩ := entry
    unfold insert
    split
    · simp [keys]
    · split
      · rename_i h
        subst h
        simp [keys]
      · have ih : k ∈ (insert rest key value).map Prod.fst ↔ k = key ∨ k ∈ rest.map Prod.fst := ih
        simp only [keys, List.map_cons, List.mem_cons, ih]
        exact or_left_comm

/-- A value is found exactly under the keys. -/
theorem contains_iff_mem_keys {entries : KeyedList α} {key : String} :
    contains entries key = true ↔ key ∈ keys entries := by
  induction entries with
  | nil => simp [contains, keys]
  | cons entry rest ih =>
    obtain ⟨k, v⟩ := entry
    have ih : (get? rest key).isSome = true ↔ key ∈ rest.map Prod.fst := ih
    by_cases h : k = key
    · simp [contains, keys, get?, h]
    · simp [contains, keys, get?, h, ih, Ne.symm h]

@[simp] theorem sorted_nil : Sorted ([] : KeyedList α) := List.Pairwise.nil

/-- Putting a value in keeps the order. -/
theorem sorted_insert {entries : KeyedList α} (h : Sorted entries) (key : String) (value : α) :
    Sorted (insert entries key value) := by
  induction entries with
  | nil => simp [insert, Sorted]
  | cons entry rest ih =>
    obtain ⟨k, v⟩ := entry
    obtain ⟨hk, hr⟩ := List.pairwise_cons.1 h
    unfold insert
    split
    · rename_i hlt
      refine List.pairwise_cons.2 ⟨fun other ho => ?_, h⟩
      rcases List.mem_cons.1 ho with rfl | ho
      · exact hlt
      · exact String.lt_trans hlt (hk other ho)
    · split
      · rename_i heq
        subst heq
        exact List.pairwise_cons.2 ⟨hk, hr⟩
      · rename_i hlt hne
        refine List.pairwise_cons.2 ⟨fun other ho => ?_, ih hr⟩
        rcases mem_keys_insert.1 ho with rfl | ho
        · exact Std.lt_of_le_of_ne (String.not_lt.1 hlt) (Ne.symm hne)
        · exact hk other ho

/-- Taking a value out keeps the order. -/
theorem sorted_erase {entries : KeyedList α} (h : Sorted entries) (key : String) :
    Sorted (erase entries key) := by
  refine List.Pairwise.sublist ?_ h
  clear h
  induction entries with
  | nil => exact List.Sublist.refl _
  | cons entry rest ih =>
    obtain ⟨k, v⟩ := entry
    unfold erase
    split
    · exact List.sublist_cons_self _ _
    · exact List.Sublist.cons_cons _ ih

/-- The keyed list of some pairs is in order. -/
theorem sorted_ofList (pairs : List (String × α)) : Sorted (ofList pairs) := by
  have h (entries : KeyedList α) (hs : Sorted entries) :
      Sorted (pairs.foldl (fun entries (key, value) => insert entries key value) entries) := by
    induction pairs generalizing entries with
    | nil => exact hs
    | cons pair pairs ih => exact ih _ (sorted_insert hs _ _)
  exact h [] sorted_nil

end KeyedList

end DesignTokens
