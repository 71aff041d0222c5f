import DesignTokens.KeyedList
import Mathlib.Data.List.Induction

/-!
# What is found in a keyed list

A keyed list in order is determined by what is found in it: two of them with the same value under every
key are equal. So operations on keyed lists are compared by look-ups, and the order takes care of
itself.
-/

namespace DesignTokens.KeyedList

variable {α : Type} {entries others : KeyedList α} {key : String} {value : α}

instance (entries : KeyedList α) : Decidable (Sorted entries) :=
  inferInstanceAs (Decidable (List.Pairwise _ _))

theorem sorted_cons :
    Sorted ((key, value) :: entries) ↔ (∀ k ∈ keys entries, key < k) ∧ Sorted entries :=
  List.pairwise_cons

theorem get?_eq_none_iff : get? entries key = none ↔ key ∉ keys entries := by
  rw [← contains_iff_mem_keys, contains]
  simp

theorem mem_keys_of_get? (h : get? entries key = some value) : key ∈ keys entries :=
  contains_iff_mem_keys.1 (by simp [contains, h])

/-- What is found under a key stands there. -/
theorem mem_of_get? (h : get? entries key = some value) : (key, value) ∈ entries := by
  induction entries with
  | nil => simp at h
  | cons entry rest ih =>
    obtain ⟨k, v⟩ := entry
    rw [get?] at h
    split at h
    · rename_i hk
      obtain rfl := Option.some.inj h
      simp [hk]
    · exact List.mem_cons_of_mem _ (ih h)

/-- The first key of a list in order stands nowhere else. -/
theorem get?_tail (h : Sorted ((key, value) :: entries)) : get? entries key = none := by
  rw [get?_eq_none_iff]
  intro hm
  exact String.lt_irrefl key ((sorted_cons.1 h).1 key hm)

/-- What is found behind the first entry has another key. -/
theorem get?_tail_eq (h : Sorted ((key, value) :: entries)) (k : String) :
    get? entries k = if key = k then none else get? ((key, value) :: entries) k := by
  split
  · rename_i hk
    subst hk
    exact get?_tail h
  · rename_i hk
    rw [get?, if_neg hk]

/-- In a list in order, what stands under a key is found there. -/
theorem get?_eq_some_iff (h : Sorted entries) :
    get? entries key = some value ↔ (key, value) ∈ entries := by
  refine ⟨mem_of_get?, fun hm => ?_⟩
  induction entries with
  | nil => simp at hm
  | cons entry rest ih =>
    obtain ⟨k, v⟩ := entry
    rw [get?]
    rcases List.mem_cons.1 hm with he | hr
    · obtain ⟨rfl, rfl⟩ := Prod.mk.inj he
      exact if_pos rfl
    · have behind : k < key := (sorted_cons.1 h).1 key (List.mem_map.2 ⟨_, hr, rfl⟩)
      have different : k ≠ key := by
        rintro rfl
        exact String.lt_irrefl k behind
      rw [if_neg different]
      exact ih (sorted_cons.1 h).2 hr

/-- A value that is taken out is found no more, and all else stays. -/
theorem get?_erase (h : Sorted entries) (key k : String) :
    get? (erase entries key) k = if key = k then none else get? entries k := by
  induction entries with
  | nil => simp [erase]
  | cons entry rest ih =>
    obtain ⟨first, v⟩ := entry
    have tail := ih (sorted_cons.1 h).2
    unfold erase
    by_cases hf : first = key
    · subst hf
      rw [if_pos rfl]
      exact get?_tail_eq h k
    · rw [if_neg hf]
      by_cases hk : first = k
      · subst hk
        simp [get?, Ne.symm hf]
      · simp [get?, hk, tail]

/-- What is found in the list of some pairs is found in the pairs from their end. -/
theorem get?_ofList (pairs : List (String × α)) (key : String) :
    get? (ofList pairs) key = (pairs.reverse.find? fun pair => pair.1 = key).map (·.2) := by
  induction pairs using List.reverseRecOn with
  | nil => rfl
  | append_singleton pairs last ih =>
    have put : ofList (pairs ++ [last]) = insert (ofList pairs) last.1 last.2 := by
      rw [ofList, List.foldl_append]
      rfl
    rw [put, get?_insert, ih, List.reverse_append, List.reverse_singleton, List.singleton_append,
      List.find?_cons]
    by_cases same : last.1 = key <;> simp [same]

/-- Of the pairs with one key the last counts. -/
theorem get?_ofList_eq_some_iff {pairs : List (String × α)} :
    get? (ofList pairs) key = some value ↔
      ∃ before after, pairs = before ++ (key, value) :: after ∧ ∀ pair ∈ after, pair.1 ≠ key := by
  rw [get?_ofList, Option.map_eq_some_iff]
  constructor
  · rintro ⟨⟨k, v⟩, found, rfl⟩
    obtain ⟨same, after, before, split, fresh⟩ := List.find?_eq_some_iff_append.1 found
    obtain rfl : k = key := by simpa using same
    refine ⟨before.reverse, after.reverse, ?_, by simpa using fresh⟩
    rw [← List.reverse_reverse pairs, split]
    simp
  · rintro ⟨before, after, rfl, fresh⟩
    refine ⟨(key, value), List.find?_eq_some_iff_append.2 ?_, rfl⟩
    exact ⟨by simp, after.reverse, before.reverse, by simp, by simpa using fresh⟩

/-- Two keyed lists in which the same is found are the same. -/
theorem ext (h : Sorted entries) (h' : Sorted others)
    (same : ∀ key, get? entries key = get? others key) : entries = others := by
  induction entries generalizing others with
  | nil =>
    cases others with
    | nil => rfl
    | cons entry rest => simpa [get?] using same entry.1
  | cons entry rest ih =>
    obtain ⟨key, value⟩ := entry
    cases others with
    | nil => simpa [get?] using same key
    | cons entry rest' =>
      obtain ⟨key', value'⟩ := entry
      -- each first key is found in the other list, where it cannot stand behind a greater one
      have keys_eq : key = key' := by
        refine Decidable.byContradiction fun hne => ?_
        have found : get? rest' key = some value := by
          simpa [get?, Ne.symm hne] using (same key).symm
        have found' : get? rest key' = some value' := by simpa [get?, hne] using same key'
        exact String.lt_asymm ((sorted_cons.1 h).1 key' (mem_keys_of_get? found'))
          ((sorted_cons.1 h').1 key (mem_keys_of_get? found))
      subst keys_eq
      have values_eq : value = value' := by simpa [get?] using same key
      subst values_eq
      congr 1
      apply ih (sorted_cons.1 h).2 (sorted_cons.1 h').2
      intro k
      rw [get?_tail_eq h, get?_tail_eq h', same k]

/-- The keys of the list of some pairs are those of the pairs. -/
theorem mem_keys_ofList {pairs : List (String × α)} :
    key ∈ keys (ofList pairs) ↔ key ∈ pairs.map Prod.fst := by
  have put (entries : KeyedList α) :
      key ∈ keys (pairs.foldl (fun entries pair => insert entries pair.1 pair.2) entries) ↔
        key ∈ keys entries ∨ key ∈ pairs.map Prod.fst := by
    induction pairs generalizing entries with
    | nil => simp
    | cons pair pairs ih =>
      rw [List.foldl_cons, ih, mem_keys_insert, List.map_cons, List.mem_cons, or_assoc]
      exact or_left_comm
  exact (put []).trans (or_iff_right List.not_mem_nil)

end DesignTokens.KeyedList
