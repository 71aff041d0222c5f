import DesignTokens.Proofs.Json.Text
import DesignTokens.Proofs.Reference.Substitution

/-!
# Whole-value references

A text that is one placeholder and nothing else may stand for a value of another type. Along acyclic
paths the chain has no say in this: the token at a path stands for what its text stands for.

The placeholder of such a path expands to the JSON text of the value with nothing but blanks around it,
so the two ways to read it agree up to the blanks, if the hook leaves such texts alone.
-/

namespace DesignTokens.Reference

open Text

variable {tree : Tree} {hook : String → Traced String} {chain : List String}
variable {path inner text : String} {value : Json}

theorem value_wholeValue (tree : Tree) (chain : List String) (text : String) :
    (wholeValue tree chain text).value =
      (single? text).bind fun path => (typedTarget tree chain path).value := by
  rw [wholeValue]
  cases single? text with
  | none => rfl
  | some path =>
    cases h : (typedTarget tree chain path).value <;> simp [h]

/-- A text stands for the same value in two ways if its placeholder does. -/
theorem value_wholeValue_congr {tree' : Tree} {chain' : List String}
    (h : ∀ path ∈ find text,
      (typedTarget tree chain path).value = (typedTarget tree' chain' path).value) :
    (wholeValue tree chain text).value = (wholeValue tree' chain' text).value := by
  rw [value_wholeValue, value_wholeValue]
  cases hs : single? text with
  | none => rfl
  | some path => exact h path (mem_find_of_single? hs)

/-- A string token stands for what its text stands for, along a chain with the token on it. -/
theorem value_typedTarget_inner (hc : path ∉ chain) (ht : target tree path = .text inner) :
    (typedTarget tree chain path).value = (wholeValue tree (chain ++ [path]) inner).value := by
  rw [value_wholeValue]
  cases hs : single? inner with
  | none =>
    rw [typedTarget_other hc]
    · simp [ht]
    · intro text next hi
      obtain rfl : inner = text := by simpa [ht] using hi
      simp [hs]
  | some next =>
    rw [typedTarget_text hc ht hs]
    rfl

section Acyclic

/-- What an acyclic path stands for is the same along every clear chain. -/
theorem value_typedTarget_of_clear (ha : Acyclic tree path) (hc : Clear tree chain path) :
    (typedTarget tree chain path).value = (typedTarget tree [] path).value := by
  induction ha using Acyclic.induction generalizing chain with
  | text path inner ha ht ih =>
    rw [value_typedTarget_inner hc.notMem ht, value_typedTarget_inner (by simp) ht]
    apply value_wholeValue_congr
    intro next hn
    have inside (chain : List String) (hc : Clear tree chain path) :
        (typedTarget tree (chain ++ [path]) next).value = (typedTarget tree [] next).value :=
      ih next hn (hc.push ha ((references_iff ht).2 hn))
    exact (inside chain hc).trans (inside [] (Clear.nil tree path)).symm
  | other path ha ht =>
    have ends : ∀ inner next, target tree path = .text inner → single? inner ≠ some next :=
      fun inner _ hi => absurd hi (ht inner)
    rw [typedTarget_other hc.notMem ends, typedTarget_other (by simp) ends]

/-- An acyclic token stands for what its text stands for. -/
theorem value_typedTarget_text (ha : Acyclic tree path) (ht : target tree path = .text inner) :
    (typedTarget tree [] path).value = (wholeValue tree [] inner).value := by
  rw [value_typedTarget_inner (by simp) ht]
  apply value_wholeValue_congr
  intro next hn
  have hr : References tree path next := (references_iff ht).2 hn
  exact value_typedTarget_of_clear (ha.of_references hr) ((Clear.nil tree path).push ha hr)

end Acyclic

section Typed

/-- A typed target is neither a string nor null. -/
theorem of_target_typed (h : target tree path = .typed value) :
    value.text? = none ∧ value ≠ .null := by
  unfold target at h
  split at h
  · rename_i t _
    cases hv : t.value with
    | string s => simp [hv] at h
    | null => simp [hv] at h
    | _ =>
      obtain rfl : _ = value := by simpa [hv] using h
      exact ⟨rfl, by simp⟩
  · simp at h
  · simp at h

theorem of_typedTarget (h : (typedTarget tree chain path).value = some value) :
    value.text? = none ∧ value ≠ .null := by
  induction h using typed_induction with
  | ends chain path _ hc ht => exact of_target_typed ht
  | next chain path inner next _ _ hc ht hs ih => exact ih

/-- What a whole-value reference stands for is neither a string nor null. -/
theorem of_wholeValue (h : (wholeValue tree chain text).value = some value) :
    value.text? = none ∧ value ≠ .null := by
  rw [value_wholeValue] at h
  obtain ⟨path, -, hv⟩ := Option.bind_eq_some_iff.1 h
  exact of_typedTarget hv

variable (hook)
variable (keeps : ∀ text : String, Padded value.render.toList text.toList → (hook text).value = text)
include keeps

/-- A path that stands for a value expands to the text of the value, up to blanks. -/
theorem padded_expandPath (h : (typedTarget tree chain path).value = some value) :
    Padded value.render.toList (expandPath tree hook chain path).value.toList := by
  induction h using typed_induction with
  | ends chain path _ hc ht =>
    rw [expandPath_other hook hc (by simp [ht]), ht]
    exact .refl _
  | next chain path inner next _ _ hc ht hs ih =>
    have inside : Padded value.render.toList
        (expandText tree hook (chain ++ [path]) inner).value.toList := by
      rw [value_expandText]
      exact ih.trans (padded_substitute_of_single? hs _)
    rw [expandPath_text hook hc ht]
    simpa [keeps _ inside] using inside

end Typed

end DesignTokens.Reference
