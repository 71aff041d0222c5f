import DesignTokens.Proofs.Reference.Cycle

/-!
# Expansion looks at what can be reached

Two trees agree from a path on if every path that can be reached from it leads to the same target in
both. Then the placeholder of the path expands to the same text in both trees, with the same steps:
along every chain, with every hook, and with cycles or without. What the trees hold elsewhere is not
looked at.

Reachability is asked of one of the trees only; where the trees agree it is the same in the other.
-/

namespace DesignTokens.Reference

open Relation

variable {tree other : Tree} {hook : String → Traced String} {chain : List String}
variable {path next text inner : String}

/-- Every path that can be reached from a path in the first tree leads to the same target in the
second one. -/
def Agree (tree other : Tree) (path : String) : Prop :=
  ∀ last, ReflTransGen (References tree) path last → target other last = target tree last

namespace Agree

theorem target_eq (h : Agree tree other path) : target other path = target tree path :=
  h path .refl

/-- Agreement goes on along references. -/
theorem of_references (h : Agree tree other path) (hr : References tree path next) :
    Agree tree other next := by
  intro last hl
  exact h last (.head hr hl)

theorem of_find (h : Agree tree other path) (ht : target tree path = .text inner)
    (hn : next ∈ find inner) : Agree tree other next :=
  h.of_references ((references_iff ht).2 hn)

/-- A text reaches what its placeholders do. -/
theorem of_reaches (h : ∀ last, Reaches tree text last → target other last = target tree last)
    (hp : path ∈ find text) : Agree tree other path := by
  intro last hl
  exact h last ⟨path, mem_find_iff.1 hp, hl⟩

end Agree

theorem expandPath_eq_of_agree (h : Agree tree other path) :
    expandPath other hook chain path = expandPath tree hook chain path := by
  induction chain, path using expand_induction tree with
  | known chain path hc => rw [expandPath_of_mem hook hc, expandPath_of_mem hook hc]
  | text chain path inner hc ht ih =>
    have inside : expandText other hook (chain ++ [path]) inner =
        expandText tree hook (chain ++ [path]) inner := by
      apply expandText_congr
      intro next hn
      exact ih next hn (h.of_find ht hn)
    rw [expandPath_text hook hc (h.target_eq.trans ht), expandPath_text hook hc ht, inside]
  | other chain path hc ht =>
    have ho : ∀ inner, target other path ≠ .text inner := by
      intro inner
      rw [h.target_eq]
      exact ht inner
    rw [expandPath_other hook hc ho, expandPath_other hook hc ht, h.target_eq]

theorem typedTarget_eq_of_agree (h : Agree tree other path) :
    typedTarget other chain path = typedTarget tree chain path := by
  induction chain, path using follow_induction tree with
  | known chain path hc => rw [typedTarget_of_mem hc, typedTarget_of_mem hc]
  | next chain path inner next hc ht hs ih =>
    rw [typedTarget_text hc (h.target_eq.trans ht) hs, typedTarget_text hc ht hs,
      ih (h.of_find ht (mem_find_of_single? hs))]
  | ends chain path hc ht =>
    have ho : ∀ inner next, target other path = .text inner → single? inner ≠ some next := by
      intro inner next hi
      exact ht inner next (h.target_eq ▸ hi)
    rw [typedTarget_other hc ho, typedTarget_other hc ht, h.target_eq]

section Text

variable (h : ∀ last, Reaches tree text last → target other last = target tree last)
include h

theorem expandText_eq_of_reaches :
    expandText other hook chain text = expandText tree hook chain text := by
  apply expandText_congr
  intro path hp
  exact expandPath_eq_of_agree (.of_reaches h hp)

theorem wholeValue_eq_of_reaches : wholeValue other chain text = wholeValue tree chain text := by
  rw [wholeValue, wholeValue]
  cases hs : single? text with
  | none => rfl
  | some path =>
    have agree : Agree tree other path := .of_reaches h (mem_find_of_single? hs)
    simp only [typedTarget_eq_of_agree agree]

/-- The references of a value are resolved by what it reaches. -/
theorem resolveValue_eq_of_reaches :
    resolveValue other hook chain (.string text) = resolveValue tree hook chain (.string text) := by
  rw [resolveValue, resolveValue, wholeValue_eq_of_reaches h, expandText_eq_of_reaches h]

end Text

end DesignTokens.Reference
