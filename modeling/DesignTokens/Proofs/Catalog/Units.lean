import DesignTokens.Catalog.MathFunctions
import DesignTokens.Proofs.Catalog.Arguments

/-!
# How units meet

Operands that are added, subtracted, divided with remainder or compared are brought to one unit: the
first one that any of them has. Units meet if they are the same or both are units of length, and a bare
number meets every unit.

A fold over operands keeps the first unit seen so far and refuses an operand that does not meet it.
`Settles` says what this comes to for the whole list. Units meet one after the other exactly if any two
of them do, so the order of the operands does not matter.
-/

namespace DesignTokens.MathFunctions

open Dimension

variable {settings : Settings} {a b best d : Dimension} {operands : List Dimension}
  {u v text : String} {units texts : List String}

section Lists

/-- Two units are the same, or both are units of length. -/
def Compatible (u v : String) : Prop := u = v ∨ (isLengthUnit u = true ∧ isLengthUnit v = true)

/-- The first of some units that is not empty; empty when all are. -/
def firstUnit : List String → String
  | [] => ""
  | u :: units => if u = "" then firstUnit units else u

/-- Every unit that is not empty is compatible with the first one. -/
def Meet (units : List String) : Prop := ∀ u ∈ units, u ≠ "" → Compatible u (firstUnit units)

instance (u v : String) : Decidable (Compatible u v) := inferInstanceAs (Decidable (_ ∨ _))

instance (units : List String) : Decidable (Meet units) :=
  inferInstanceAs (Decidable (∀ u ∈ units, u ≠ "" → Compatible u (firstUnit units)))

theorem Compatible.symm (h : Compatible u v) : Compatible v u := h.imp Eq.symm And.symm

theorem Compatible.trans {w : String} (h : Compatible u v) (h' : Compatible v w) : Compatible u w := by
  rcases h with rfl | ⟨hu, hv⟩
  · exact h'
  · rcases h' with rfl | ⟨-, hw⟩
    · exact .inr ⟨hu, hv⟩
    · exact .inr ⟨hu, hw⟩

@[simp] theorem firstUnit_cons_empty (units : List String) : firstUnit ("" :: units) = firstUnit units :=
  if_pos rfl

theorem firstUnit_cons_of_ne (h : u ≠ "") (units : List String) : firstUnit (u :: units) = u := if_neg h

/-- The first unit is empty, or one of the units. -/
theorem firstUnit_mem (h : firstUnit units ≠ "") : firstUnit units ∈ units := by
  induction units with
  | nil => exact absurd rfl h
  | cons u units ih =>
    by_cases bare : u = ""
    · subst bare
      rw [firstUnit_cons_empty] at h ⊢
      exact List.mem_cons_of_mem _ (ih h)
    · rw [firstUnit_cons_of_ne bare]
      exact List.mem_cons_self

theorem firstUnit_ne_of_mem (h : u ∈ units) (named : u ≠ "") : firstUnit units ≠ "" := by
  induction units with
  | nil => cases h
  | cons v units ih =>
    by_cases bare : v = ""
    · subst bare
      rw [firstUnit_cons_empty]
      exact ih ((List.mem_cons.1 h).resolve_left named)
    · rwa [firstUnit_cons_of_ne bare]

/-- Two units may be replaced by the first of them. -/
theorem firstUnit_cons_cons (u v : String) (units : List String) :
    firstUnit (u :: v :: units) = firstUnit (firstUnit [u, v] :: units) := by
  by_cases bare : u = ""
  · subst bare
    by_cases also : v = ""
    · subst also
      rfl
    · simp [firstUnit_cons_of_ne also]
  · simp [firstUnit_cons_of_ne bare]

/-- The units meet exactly if any two of them do; so their order does not matter. -/
theorem meet_iff_forall :
    Meet units ↔ ∀ u ∈ units, ∀ v ∈ units, u ≠ "" → v ≠ "" → Compatible u v := by
  constructor
  · intro meet u hu v hv named named'
    exact (meet u hu named).trans (meet v hv named').symm
  · intro pairs u hu named
    have first := firstUnit_ne_of_mem hu named
    exact pairs u hu _ (firstUnit_mem first) named first

theorem meet_perm {units' : List String} (h : units.Perm units') : Meet units ↔ Meet units' := by
  simp only [meet_iff_forall, h.mem_iff]

/-- Units meet step by step: the first two, and then the first of these and the others. -/
theorem meet_cons_cons :
    Meet (u :: v :: units) ↔ Meet [u, v] ∧ Meet (firstUnit [u, v] :: units) := by
  by_cases bare : u = ""
  · subst bare
    by_cases also : v = ""
    · subst also
      have none : firstUnit ["", ""] = "" := rfl
      simp [Meet, none]
    · simp [Meet, firstUnit_cons_of_ne also, Compatible]
  · simp [Meet, firstUnit_cons_of_ne bare, Compatible]

theorem firstUnit_singleton (u : String) : firstUnit [u] = u := by
  by_cases bare : u = ""
  · rw [bare]
    rfl
  · exact firstUnit_cons_of_ne bare []

theorem firstUnit_pair (u v : String) : firstUnit [u, v] = if u = "" then v else u := by
  rw [firstUnit, firstUnit_singleton]

theorem meet_pair_iff : Meet [u, v] ↔ u = "" ∨ v = "" ∨ Compatible u v := by
  rw [meet_iff_forall]
  constructor
  · intro pairs
    by_cases bare : u = ""
    · exact .inl bare
    by_cases also : v = ""
    · exact .inr (.inl also)
    exact .inr (.inr (pairs u (by simp) v (by simp) bare also))
  · have same (w : String) : Compatible w w := .inl rfl
    simp only [List.forall_mem_cons, List.not_mem_nil, false_implies, implies_true, and_true]
    rintro (rfl | rfl | meet)
    · simp [same]
    · simp [same]
    · simp [same, meet, meet.symm]

theorem isUnit_firstUnit (h : ∀ u ∈ units, IsUnit u) : IsUnit (firstUnit units) := by
  by_cases bare : firstUnit units = ""
  · rw [bare]
    exact isUnit_empty
  · exact h _ (firstUnit_mem bare)

end Lists

section Steps

/-- Operands with some units are brought to one unit: what is computed has the first unit of them, or
the operands are refused because their units do not meet. -/
inductive Settles {α : Type} (unitOf : α → String) (units : List String) :
    Except FunctionError α → Prop where
  | ok {a : α} (meet : Meet units) (own : unitOf a = firstUnit units) : Settles unitOf units (.ok a)
  | refused {left right : String} (apart : ¬ Meet units) :
    Settles unitOf units (.error (.incompatibleUnits left right))

/-- What is computed next from an aligned operand has the same unit. -/
theorem Settles.bind {α β : Type} {unitOf : α → String} {unitOf' : β → String}
    {x : Except FunctionError α} {f : α → Except FunctionError β} (h : Settles unitOf units x)
    (hf : ∀ a, unitOf a = firstUnit units → ∃ b, f a = .ok b ∧ unitOf' b = unitOf a) :
    Settles unitOf' units (x >>= f) := by
  cases h with
  | ok meet own =>
    obtain ⟨b, next, same⟩ := hf _ own
    show Settles unitOf' units (f _)
    rw [next]
    exact .ok meet (same.trans own)
  | refused apart => exact .refused apart

/-- Two operands are settled before the others, as one operand with the first of their units. -/
theorem Settles.cons {α β : Type} {unitOf : α → String} {unitOf' : β → String}
    {x : Except FunctionError α} {f : α → Except FunctionError β} (h : Settles unitOf [u, v] x)
    (hf : ∀ a, unitOf a = firstUnit [u, v] → Settles unitOf' (unitOf a :: units) (f a)) :
    Settles unitOf' (u :: v :: units) (x >>= f) := by
  cases h with
  | @ok a meet own =>
    have rest := hf a own
    rw [own] at rest
    show Settles unitOf' (u :: v :: units) (f a)
    generalize f a = y at rest ⊢
    cases rest with
    | ok meets last => exact .ok (meet_cons_cons.2 ⟨meet, meets⟩) (by rw [last, ← firstUnit_cons_cons])
    | refused apart => exact .refused fun meets => apart (meet_cons_cons.1 meets).2
  | refused apart => exact .refused fun meets => apart (meet_cons_cons.1 meets).1

theorem Settles.yields {α : Type} {unitOf : α → String} {x : Except FunctionError α}
    (h : Settles unitOf units x) : Yields x fun a => unitOf a = firstUnit units := by
  cases h with
  | ok _ own => exact .ok own
  | refused _ => exact .error

theorem settles_align (ha : IsUnit a.unit) :
    Settles Pair.unit [a.unit, b.unit] (align settings a b) := by
  rw [align]
  split_ifs with same bareA bareB
  · refine .ok (meet_pair_iff.2 (.inr (.inr (.inl same)))) ?_
    simp [firstUnit_pair, ← same]
  · have bare : a.unit = "" := by simpa [isUnitless] using bareA
    refine .ok (meet_pair_iff.2 (.inl bare)) ?_
    rw [firstUnit_pair, if_pos bare]
  · have named : a.unit ≠ "" := by simpa [isUnitless] using bareA
    have bare : b.unit = "" := by simpa [isUnitless] using bareB
    refine .ok (meet_pair_iff.2 (.inr (.inl bare))) ?_
    rw [firstUnit_pair, if_neg named]
  · have namedA : a.unit ≠ "" := by simpa [isUnitless] using bareA
    have namedB : b.unit ≠ "" := by simpa [isUnitless] using bareB
    have converts := isSome_convert?_iff settings.baseFontSize ha.lower (Ne.symm same) namedB
    split
    · rename_i converted
      rw [converted] at converts
      refine .ok (meet_pair_iff.2 (.inr (.inr (.inr (converts.1 rfl))))) ?_
      rw [firstUnit_pair, if_neg namedA]
    · rename_i none
      rw [none] at converts
      refine .refused fun meet => ?_
      rcases meet_pair_iff.1 meet with bare | bare | equal | lengths
      · exact namedA bare
      · exact namedB bare
      · exact same equal
      · exact Bool.false_ne_true (converts.2 lengths)

/-- One more operand. -/
theorem settles_preferred (better : Float → Float → Bool) (hb : IsUnit best.unit)
    (hd : parse? text = some d) :
    Settles Dimension.unit [best.unit, d.unit] (preferred settings better best text) := by
  have read : Arguments.readDimension text = .ok d := by rw [Arguments.readDimension, hd]
  have unit : IsUnit (firstUnit [best.unit, d.unit]) :=
    isUnit_firstUnit (by simp [hb, (parse?_sound hd).unit])
  rw [preferred, read]
  refine (settles_align hb).bind fun p own => ⟨_, rfl, ?_⟩
  rw [of, own]
  exact unit.lower

/-- All operands after the best one so far. -/
theorem settles_foldlM (better : Float → Float → Bool) (hb : IsUnit best.unit)
    (h : texts.map parse? = operands.map some) :
    Settles Dimension.unit (best.unit :: operands.map (·.unit))
      (texts.foldlM (preferred settings better) best) := by
  induction texts generalizing best operands with
  | nil =>
    obtain rfl : operands = [] := by simpa using h
    exact .ok (fun u hu named => by simp_all [Compatible, firstUnit_singleton])
      (firstUnit_singleton best.unit).symm
  | cons text texts ih =>
    obtain ⟨d, operands, rfl⟩ : ∃ d others, operands = d :: others :=
      List.exists_cons_of_ne_nil (by rintro rfl; simp at h)
    obtain ⟨hd, h⟩ := List.cons.inj h
    have unit : IsUnit (firstUnit [best.unit, d.unit]) :=
      isUnit_firstUnit (by simp [hb, (parse?_sound hd).unit])
    rw [List.foldlM_cons]
    exact (settles_preferred better hb hd).cons fun next own => ih (own ▸ unit) h

end Steps

end DesignTokens.MathFunctions
