import DesignTokens.Catalog.Basic
import DesignTokens.Proofs.KeyedList
import Mathlib.Algebra.BigOperators.Group.List.Basic
import Mathlib.Algebra.GroupWithZero.Nat

/-!
# The listings of a catalog

A catalog in order holds each function under its own name, and no name twice. `InOrder` says so; every
operation keeps it. All views of such a catalog agree: the list goes through the families and within
each of them through the names, holds one record for every name that a function is found under, and is
as long as the catalog is large.
-/

namespace DesignTokens

namespace FunctionFamily

/-- The place of a family in listings. -/
def rank : FunctionFamily → Nat
  | .color => 0
  | .contrast => 1
  | .typography => 2
  | .math => 3
  | .custom => 4

theorem mem_all (family : FunctionFamily) : family ∈ all := by cases family <;> decide

theorem pairwise_all : all.Pairwise fun a b => a.rank < b.rank := by decide

end FunctionFamily

namespace FunctionInfo

/-- One record stands before another in a listing: by family, and then by name. -/
def Before (a b : FunctionInfo) : Prop :=
  a.family.rank < b.family.rank ∨ a.family = b.family ∧ a.name < b.name

end FunctionInfo

namespace Catalog

variable {c : Catalog} {name : String} {entry : CatalogEntry} {info : FunctionInfo}
  {body : FunctionBody}

/-- Every function stands under its own name, and the names are in order. -/
structure InOrder (c : Catalog) : Prop where
  sorted : KeyedList.Sorted c.entries
  named : ∀ name entry, (name, entry) ∈ c.entries → entry.info.name = name

section InOrder

theorem inOrder_empty : empty.InOrder := ⟨KeyedList.sorted_nil, fun _ _ h => absurd h List.not_mem_nil⟩

theorem InOrder.insert (h : c.InOrder) (info : FunctionInfo) (body : FunctionBody) :
    (c.insert info body).InOrder := by
  have sorted := KeyedList.sorted_insert h.sorted info.name ⟨info, body⟩
  refine ⟨sorted, fun name entry hm => ?_⟩
  rw [Catalog.insert, ← KeyedList.get?_eq_some_iff sorted, KeyedList.get?_insert] at hm
  split at hm
  · rename_i hn
    obtain rfl := Option.some.inj hm
    exact hn
  · exact h.named name entry (KeyedList.mem_of_get? hm)

theorem InOrder.unregister (h : c.InOrder) (name : String) : (c.unregister name).2.InOrder := by
  have sorted := KeyedList.sorted_erase h.sorted name
  refine ⟨sorted, fun other entry hm => ?_⟩
  rw [Catalog.unregister, ← KeyedList.get?_eq_some_iff sorted, KeyedList.get?_erase h.sorted] at hm
  split at hm
  · simp at hm
  · exact h.named other entry (KeyedList.mem_of_get? hm)

end InOrder

section Listing

/-- The records of a catalog, in the order of the names. -/
def records (c : Catalog) : List FunctionInfo := c.entries.map (·.2.info)

theorem mem_listFamily {family : FunctionFamily} :
    info ∈ c.listFamily family ↔ info ∈ c.records ∧ info.family = family := by
  rw [listFamily, List.mem_filter, beq_iff_eq]
  rfl

theorem mem_list : info ∈ c.list ↔ info ∈ c.records := by
  rw [list, List.mem_flatMap]
  constructor
  · rintro ⟨family, -, hi⟩
    exact (mem_listFamily.1 hi).1
  · intro hi
    exact ⟨info.family, FunctionFamily.mem_all _, mem_listFamily.2 ⟨hi, rfl⟩⟩

/-- The records of a family are those of the list that have the family. -/
theorem listFamily_eq (c : Catalog) (family : FunctionFamily) :
    c.listFamily family = c.list.filter (·.family == family) := by
  have other (g : FunctionFamily) : (c.listFamily g).filter (·.family == family) =
      if g = family then c.listFamily family else [] := by
    split
    · rename_i same
      subst same
      rw [List.filter_eq_self]
      exact fun info hi => beq_iff_eq.2 (mem_listFamily.1 hi).2
    · rename_i different
      rw [List.filter_eq_nil_iff]
      intro info hi
      rw [(mem_listFamily.1 hi).2, beq_iff_eq]
      exact different
  rw [list, List.filter_flatMap]
  simp only [other]
  cases family <;> simp [FunctionFamily.all]

/-- Every record is in the list once. -/
theorem length_list (c : Catalog) : c.list.length = c.size := by
  have each (records : List FunctionInfo) :
      (FunctionFamily.all.map fun family => (records.filter (·.family == family)).length).sum =
        records.length := by
    induction records with
    | nil => rfl
    | cons info records ih =>
      rw [List.length_cons, ← ih]
      cases hf : info.family <;> simp [FunctionFamily.all, hf] <;> omega
  have all : c.records.length = c.entries.length := List.length_map _
  rw [list, List.length_flatMap, size, ← all]
  exact each c.records

theorem sum_familySizes (c : Catalog) : (c.familySizes.map Prod.snd).sum = c.list.length := by
  have dropped (sizes : List (FunctionFamily × Nat)) :
      ((sizes.filter fun size => 0 < size.2).map Prod.snd).sum = (sizes.map Prod.snd).sum := by
    induction sizes with
    | nil => rfl
    | cons size sizes ih =>
      obtain ⟨family, n⟩ := size
      cases n <;> simp [ih]
  refine (dropped _).trans ?_
  rw [List.map_map, list, List.length_flatMap]
  rfl

theorem mem_familySizes {family : FunctionFamily} {n : Nat} :
    (family, n) ∈ c.familySizes ↔ n = (c.listFamily family).length ∧ 0 < n := by
  simp only [familySizes, List.mem_filter, List.mem_map, Prod.mk.injEq, decide_eq_true_eq]
  constructor
  · rintro ⟨⟨_, -, rfl, rfl⟩, some⟩
    exact ⟨rfl, some⟩
  · rintro ⟨rfl, some⟩
    exact ⟨⟨family, FunctionFamily.mem_all _, rfl, rfl⟩, some⟩

/-- The records are in the order of the names. -/
theorem InOrder.pairwise_records (h : c.InOrder) : c.records.Pairwise fun a b => a.name < b.name := by
  rw [records, List.pairwise_map]
  refine (List.pairwise_map.1 h.sorted).imp_of_mem fun {a b} ha hb less => ?_
  rw [h.named a.1 a.2 ha, h.named b.1 b.2 hb]
  exact less

/-- The list goes by family and then by name, and strictly so. -/
theorem InOrder.pairwise_list (h : c.InOrder) : c.list.Pairwise FunctionInfo.Before := by
  rw [list, List.pairwise_flatMap]
  constructor
  · intro family _
    refine (h.pairwise_records.filter _).imp_of_mem fun {a b} ha hb less => .inr ⟨?_, less⟩
    rw [(mem_listFamily.1 ha).2, (mem_listFamily.1 hb).2]
  · refine FunctionFamily.pairwise_all.imp fun {f g} less a ha b hb => .inl ?_
    rw [(mem_listFamily.1 ha).2, (mem_listFamily.1 hb).2]
    exact less

/-- A record is listed exactly if it is the one found under its name. -/
theorem InOrder.mem_list_iff (h : c.InOrder) : info ∈ c.list ↔ c.info? info.name = some info := by
  rw [mem_list, info?, Option.map_eq_some_iff, records, List.mem_map]
  constructor
  · rintro ⟨⟨name, entry⟩, hm, rfl⟩
    have own : entry.info.name = name := h.named name entry hm
    subst own
    exact ⟨entry, (KeyedList.get?_eq_some_iff h.sorted).2 hm, rfl⟩
  · rintro ⟨entry, he, hi⟩
    exact ⟨(info.name, entry), KeyedList.mem_of_get? he, hi⟩

/-- What is found under a name has this name. -/
theorem InOrder.name_of_info? (h : c.InOrder) (hi : c.info? name = some info) : info.name = name := by
  obtain ⟨entry, he, rfl⟩ := Option.map_eq_some_iff.1 hi
  exact h.named name entry (KeyedList.mem_of_get? he)

/-- For every name of the catalog there is one record. -/
theorem InOrder.existsUnique_mem_list (h : c.InOrder) (hc : c.contains name = true) :
    ∃! info, info ∈ c.list ∧ info.name = name := by
  obtain ⟨entry, he⟩ := Option.isSome_iff_exists.1 hc
  have found : c.info? name = some entry.info := by simp [info?, he]
  have own := h.name_of_info? found
  refine ⟨entry.info, ⟨h.mem_list_iff.2 (own.symm ▸ found), own⟩, ?_⟩
  rintro info ⟨hi, rfl⟩
  exact Option.some.inj ((h.mem_list_iff.1 hi).symm.trans found)

end Listing

/-- All views of a catalog agree. -/
structure Listed (c : Catalog) : Prop where
  /-- The list is strictly in order, so no record is in it twice. -/
  sorted : c.list.Pairwise FunctionInfo.Before
  /-- The records listed are those found under their names. -/
  found : ∀ info, info ∈ c.list ↔ c.info? info.name = some info
  /-- The record found under a name has this name. -/
  named : ∀ name info, c.info? name = some info → info.name = name
  /-- There is one record for every name. -/
  once : ∀ name, c.contains name = true → ∃! info, info ∈ c.list ∧ info.name = name
  family : ∀ family, c.listFamily family = c.list.filter (·.family == family)
  size : c.size = c.list.length
  familySizes : ∀ family n,
    (family, n) ∈ c.familySizes ↔ n = (c.listFamily family).length ∧ 0 < n
  total : (c.familySizes.map Prod.snd).sum = c.list.length

theorem InOrder.listed (h : c.InOrder) : c.Listed where
  sorted := h.pairwise_list
  found _ := h.mem_list_iff
  named _ _ := h.name_of_info?
  once _ := h.existsUnique_mem_list
  family := c.listFamily_eq
  size := c.length_list.symm
  familySizes _ _ := mem_familySizes
  total := c.sum_familySizes

end Catalog

end DesignTokens
