import DesignTokens.Proofs.Reference.Chain
import Mathlib.Tactic.Tauto

/-!
# Expansion and its hook

The hook may answer any text and take any steps, but it has no say in which references are expanded:
only texts of tokens are read for placeholders, and no answer is. So the steps about references are
those of an expansion without a hook, if the hook takes no such steps of its own.

The steps of an expansion are those of the placeholders that are met in the course of it, each with the
steps of the hook on the text of its token. Every path that a text reaches is met at least once with a
chain that it is not on, so its token is expanded there.
-/

namespace DesignTokens

namespace Reference

/-- The codes of the diagnostics about references. -/
def codes : List Code := [.invalidToken, .unresolvedReference, .referenceToGroup, .referenceCycle]

/-- Whether a step tells about references: a token is entered or left, or a diagnostic about a
reference is raised. -/
def isReferenceStep : Step → Bool
  | .opened _ => true
  | .closed _ => true
  | .raised e => codes.contains e.code
  | _ => false

end Reference

namespace Traced

variable {α β : Type}

/-- The steps of a trace that tell about references. -/
def referenceSteps (x : Traced α) : List Step := x.steps.filter Reference.isReferenceStep

@[simp] theorem referenceSteps_pure (a : α) : (pure a : Traced α).referenceSteps = [] := rfl

@[simp] theorem referenceSteps_bind (x : Traced α) (f : α → Traced β) :
    (x >>= f).referenceSteps = x.referenceSteps ++ (f x.value).referenceSteps :=
  List.filter_append _ _

@[simp] theorem referenceSteps_step (t : Step) :
    (Tracing.step t : Traced Unit).referenceSteps =
      if Reference.isReferenceStep t then [t] else [] := List.filter_cons

/-- The diagnostics about references are among the steps about them, in the same order. -/
theorem filter_events (x : Traced α) :
    x.events.filter (fun e => Reference.codes.contains e.code) =
      x.referenceSteps.filterMap Step.raised? := by
  have shown (t : Step) : (t.raised?.filter fun e => Reference.codes.contains e.code) =
      if Reference.isReferenceStep t then t.raised? else none := by
    cases t <;> rfl
  rw [events, List.filter_filterMap, referenceSteps, List.filterMap_filter]
  exact congrArg (x.steps.filterMap ·) (funext shown)

end Traced

namespace Reference

open Relation

variable {tree : Tree} {hook : String → Traced String} {chain : List String}
variable {path other inner text : String} {step : Step}

section Silent

/-- A hook that takes no steps about references. -/
def Silent (hook : String → Traced String) : Prop := ∀ text, (hook text).referenceSteps = []

theorem referenceSteps_expandText (tree : Tree) (hook : String → Traced String)
    (chain : List String) (text : String) :
    (expandText tree hook chain text).referenceSteps =
      (find text).flatMap fun path => (expandPath tree hook chain path).referenceSteps := by
  rw [Traced.referenceSteps, steps_expandText, List.filter_flatMap]
  rfl

variable (hh : Silent hook)
include hh

/-- The hook has no say in the steps about references. -/
theorem referenceSteps_expandPath (chain : List String) (path : String) :
    (expandPath tree hook chain path).referenceSteps =
      (expandPath tree pure chain path).referenceSteps := by
  induction chain, path using expand_induction tree with
  | known chain path hc => rw [expandPath_of_mem hook hc, expandPath_of_mem pure hc]
  | text chain path inner hc ht ih =>
    have inside : (expandText tree hook (chain ++ [path]) inner).referenceSteps =
        (expandText tree pure (chain ++ [path]) inner).referenceSteps := by
      rw [referenceSteps_expandText, referenceSteps_expandText]
      exact List.flatMap_congr ih
    rw [expandPath_text hook hc ht, expandPath_text pure hc ht]
    simp [inside, hh _, isReferenceStep]
  | other chain path hc ht => rw [expandPath_other hook hc ht, expandPath_other pure hc ht]

theorem referenceSteps_resolveValue (tree : Tree) (chain : List String) (value : Json) :
    (resolveValue tree hook chain value).referenceSteps =
      (resolveValue tree pure chain value).referenceSteps := by
  cases value with
  | string text =>
    have expanded : (expandText tree hook chain text).referenceSteps =
        (expandText tree pure chain text).referenceSteps := by
      rw [referenceSteps_expandText, referenceSteps_expandText]
      exact List.flatMap_congr fun path _ => referenceSteps_expandPath hh chain path
    rw [resolveValue, resolveValue, Traced.referenceSteps_bind, Traced.referenceSteps_bind]
    cases (wholeValue tree chain text).value with
    | none => simp [expanded]
    | some value => rfl
  | _ => rfl

end Silent

section Met

/-- The steps of expanding a placeholder, without those of the placeholders in the text of its token. -/
def ownSteps (tree : Tree) (hook : String → Traced String) (chain : List String) (path : String) :
    List Step :=
  if path ∈ chain then [.raised (cycleEvent chain path)]
  else
    match target tree path with
    | .text inner =>
      let inside := (expandText tree hook (chain ++ [path]) inner).value
      .opened path :: .expanded path inside :: (hook inside).steps ++ [.closed path]
    | .typed _ => []
    | .null => [.raised (nullEvent path)]
    | .group => [.raised (groupEvent path)]
    | .missing => [.raised (missingEvent path)]

theorem mem_steps_expandText :
    step ∈ (expandText tree hook chain text).steps ↔
      ∃ path ∈ find text, step ∈ (expandPath tree hook chain path).steps := by
  rw [steps_expandText, List.mem_flatMap]

theorem not_nested_of_mem {inside : List String × String} (hc : path ∈ chain) :
    ¬ Nested tree inside (chain, path) := fun hn => hn.1 hc

theorem not_nested_of_target {inside : List String × String}
    (ht : ∀ inner, target tree path ≠ .text inner) : ¬ Nested tree inside (chain, path) := by
  rintro ⟨-, -, hr⟩
  obtain ⟨inner, hi, -⟩ := target_of_references hr
  exact ht inner hi

/-- The placeholders expanded in the course of expanding one are those in the text of its token. -/
theorem mem_steps_expandText_iff_nested (hc : path ∉ chain) (ht : target tree path = .text inner) :
    step ∈ (expandText tree hook (chain ++ [path]) inner).steps ↔
      ∃ inside, Nested tree inside (chain, path) ∧
        step ∈ (expandPath tree hook inside.1 inside.2).steps := by
  rw [mem_steps_expandText]
  constructor
  · rintro ⟨other, ho, hs⟩
    exact ⟨(chain ++ [path], other), ⟨hc, rfl, (references_iff ht).2 ho⟩, hs⟩
  · rintro ⟨⟨_, other⟩, ⟨-, rfl, hr⟩, hs⟩
    exact ⟨other, (references_iff ht).1 hr, hs⟩

/-- A placeholder takes steps of its own, and those of the placeholders in the text of its token. -/
theorem mem_steps_expandPath :
    step ∈ (expandPath tree hook chain path).steps ↔
      step ∈ ownSteps tree hook chain path ∨
        ∃ inside, Nested tree inside (chain, path) ∧
          step ∈ (expandPath tree hook inside.1 inside.2).steps := by
  by_cases hc : path ∈ chain
  · simp only [not_nested_of_mem hc, false_and, exists_false, or_false]
    rw [expandPath_of_mem hook hc, ownSteps, if_pos hc]
    rfl
  by_cases hn : ∃ inner, target tree path = .text inner
  · obtain ⟨inner, ht⟩ := hn
    rw [← mem_steps_expandText_iff_nested hc ht, expandPath_text hook hc ht, ownSteps, if_neg hc, ht]
    simp only [Traced.steps_bind, Traced.steps_step, Traced.steps_pure, List.mem_append,
      List.mem_cons, List.not_mem_nil, or_false, List.append_nil]
    tauto
  · have ht : ∀ inner, target tree path ≠ .text inner := fun inner ht => hn ⟨inner, ht⟩
    simp only [not_nested_of_target ht, false_and, exists_false, or_false]
    rw [expandPath_other hook hc ht, ownSteps, if_neg hc]
    cases h : target tree path with
    | text inner => exact absurd h (ht inner)
    | _ => rfl

/-- Expanding a placeholder takes the steps of the placeholders that are met on the way. -/
theorem mem_steps_expandPath_iff (start : List String × String) :
    step ∈ (expandPath tree hook start.1 start.2).steps ↔
      ∃ last, ReflTransGen (fun outer inner => Nested tree inner outer) start last ∧
        step ∈ ownSteps tree hook last.1 last.2 := by
  constructor
  · induction start using (Nested.wellFounded tree).induction with
    | _ start ih =>
      intro hs
      rcases mem_steps_expandPath.1 hs with own | ⟨inside, hn, hs⟩
      · exact ⟨start, .refl, own⟩
      · obtain ⟨last, hr, own⟩ := ih inside hn hs
        exact ⟨last, .head hn hr, own⟩
  · rintro ⟨last, hr, own⟩
    induction hr using ReflTransGen.head_induction_on with
    | refl => exact mem_steps_expandPath.2 (.inl own)
    | head hn _ ih => exact mem_steps_expandPath.2 (.inr ⟨_, hn, ih⟩)

/-- A text takes the steps of the placeholders that are met in the course of expanding it. -/
theorem mem_steps_expandText_iff_met :
    step ∈ (expandText tree hook [] text).steps ↔
      ∃ chain path, Met tree text chain path ∧ step ∈ ownSteps tree hook chain path := by
  rw [mem_steps_expandText]
  constructor
  · rintro ⟨start, hs, h⟩
    obtain ⟨⟨chain, path⟩, hr, own⟩ := (mem_steps_expandPath_iff ([], start)).1 h
    exact ⟨chain, path, ⟨start, hs, hr⟩, own⟩
  · rintro ⟨chain, path, ⟨start, hs, hr⟩, own⟩
    exact ⟨start, hs, (mem_steps_expandPath_iff ([], start)).2 ⟨(chain, path), hr, own⟩⟩

namespace Met

/-- What is met can be reached. -/
theorem reaches (h : Met tree text chain path) : Reaches tree text path := by
  obtain ⟨start, hs, hr⟩ := h
  refine ⟨start, mem_find_iff.1 hs, ?_⟩
  exact hr.lift Prod.snd fun _ _ hn => hn.2.2

/-- A path on a chain has been met before it was put there. -/
theorem exists_of_mem (h : Met tree text chain path) (hm : other ∈ chain) :
    ∃ entry, Met tree text entry other ∧ other ∉ entry := by
  obtain ⟨start, hs, hr⟩ := h
  generalize he : (chain, path) = last at hr
  induction hr generalizing chain path with
  | refl =>
    obtain ⟨rfl, rfl⟩ := by simpa using he
    simp at hm
  | @tail outer inner hr hn ih =>
    subst he
    obtain ⟨fresh, rfl, -⟩ := hn
    rcases List.mem_append.1 hm with hm | hm
    · exact ih hm rfl
    · obtain rfl := List.mem_singleton.1 hm
      exact ⟨outer.1, ⟨start, hs, hr⟩, fresh⟩

end Met

/-- What can be reached is met, with a chain that it is not on. -/
theorem Reaches.exists_met (h : Reaches tree text path) :
    ∃ chain, Met tree text chain path ∧ path ∉ chain := by
  obtain ⟨start, hs, hr⟩ := h
  induction hr with
  | refl => exact ⟨[], ⟨start, mem_find_iff.2 hs, .refl⟩, by simp⟩
  | @tail outer inner _ hr ih =>
    obtain ⟨chain, ⟨first, hf, walk⟩, fresh⟩ := ih
    have met : Met tree text (chain ++ [outer]) inner := ⟨first, hf, walk.tail ⟨fresh, rfl, hr⟩⟩
    -- a path that is on the chain already was met before it was put there
    by_cases hm : inner ∈ chain ++ [outer]
    · exact met.exists_of_mem hm
    · exact ⟨chain ++ [outer], met, hm⟩

end Met

section Concerns

/-- A step that tells about the reference to a path. -/
inductive Concerns (path : String) : Step → Prop where
  | opened : Concerns path (.opened path)
  | closed : Concerns path (.closed path)
  | cycle (chain : List String) : Concerns path (.raised (cycleEvent chain path))
  | null : Concerns path (.raised (nullEvent path))
  | group : Concerns path (.raised (groupEvent path))
  | missing : Concerns path (.raised (missingEvent path))

theorem Concerns.isReferenceStep (h : Concerns path step) : isReferenceStep step = true := by
  cases h <;> rfl

/-- The steps of a placeholder tell about the reference, or have to do with the hook. -/
theorem of_mem_ownSteps (h : step ∈ ownSteps tree hook chain path) :
    Concerns path step ∨
      path ∉ chain ∧ ∃ inner, target tree path = .text inner ∧
        (step = .expanded path (expandText tree hook (chain ++ [path]) inner).value ∨
          step ∈ (hook (expandText tree hook (chain ++ [path]) inner).value).steps) := by
  unfold ownSteps at h
  split at h
  · obtain rfl := List.mem_singleton.1 h
    exact .inl (.cycle chain)
  · rename_i hc
    split at h
    · rename_i inner ht
      simp only [List.mem_append, List.mem_cons, List.not_mem_nil, or_false] at h
      rcases h with (rfl | h) | rfl
      · exact .inl .opened
      · exact .inr ⟨hc, inner, ht, h⟩
      · exact .inl .closed
    · simp at h
    · obtain rfl := List.mem_singleton.1 h
      exact .inl .null
    · obtain rfl := List.mem_singleton.1 h
      exact .inl .group
    · obtain rfl := List.mem_singleton.1 h
      exact .inl .missing

theorem concerns_of_typedTarget (h : step ∈ (typedTarget tree chain path).steps) :
    ∃ other, ReflTransGen (References tree) path other ∧ Concerns other step := by
  induction chain, path using follow_induction tree with
  | known chain path hc => simp [typedTarget_of_mem hc] at h
  | next chain path inner next hc ht hs ih =>
    rw [typedTarget_text hc ht hs] at h
    simp only [Traced.steps_bind, Traced.steps_step, Traced.steps_pure, List.append_nil,
      List.mem_append, List.mem_singleton] at h
    rcases h with rfl | h | rfl
    · exact ⟨path, .refl, .opened⟩
    · obtain ⟨other, hr, concerns⟩ := ih h
      exact ⟨other, .head ((references_iff ht).2 (mem_find_of_single? hs)) hr, concerns⟩
    · exact ⟨path, .refl, .closed⟩
  | ends chain path hc ht => simp [typedTarget_other hc ht] at h

theorem concerns_of_wholeValue (h : step ∈ (wholeValue tree chain text).steps) :
    (∃ path, Reaches tree text path ∧ Concerns path step) ∨
      ∃ path, step = .noted (typedEvent path) := by
  rw [wholeValue] at h
  cases hs : single? text with
  | none => simp [hs] at h
  | some path =>
    simp only [hs, Traced.steps_bind, List.mem_append] at h
    rcases h with h | h
    · obtain ⟨other, hr, concerns⟩ := concerns_of_typedTarget h
      exact .inl ⟨other, ⟨path, mem_find_iff.1 (mem_find_of_single? hs), hr⟩, concerns⟩
    · cases hv : (typedTarget tree chain path).value with
      | none => simp [hv] at h
      | some value => exact .inr ⟨path, by simpa [hv] using h⟩

end Concerns

section Leftover

variable (hh : ∀ text, occursIn text = true → (hook text).value = text)
include hh

/-- A path that runs into a cycle leaves a placeholder behind, if the hook leaves texts with
placeholders alone. -/
theorem occursIn_expandPath (hp : isPath path.toList) (hn : ¬ Acyclic tree path) :
    occursIn (expandPath tree hook chain path).value = true := by
  induction chain, path using expand_induction tree with
  | known chain path hc =>
    rw [expandPath_of_mem hook hc]
    exact occursIn_iff.2 ⟨path, mem_find_iff.1 (by simp [keep, find_placeholderText hp])⟩
  | text chain path inner hc ht ih =>
    obtain ⟨other, ho, hn⟩ : ∃ other ∈ find inner, ¬ Acyclic tree other := by
      by_contra hall
      exact hn (.of_text ht (by simpa using hall))
    have inside : occursIn (expandText tree hook (chain ++ [path]) inner).value = true := by
      rw [value_expandText]
      exact occursIn_substitute ho (ih other ho (mem_find_iff.1 ho).1 hn)
    rw [expandPath_text hook hc ht]
    simpa [hh _ inside] using inside
  | other chain path hc ht => exact absurd (.of_target ht) hn

/-- A token that expands to a text without placeholders runs into no cycle. -/
theorem acyclic_of_not_occursIn (ht : target tree path = .text inner)
    (h : occursIn (expandText tree hook chain inner).value = false) : Acyclic tree path := by
  apply Acyclic.of_text ht
  intro other ho
  by_contra hn
  have left : occursIn (expandText tree hook chain inner).value = true := by
    rw [value_expandText]
    exact occursIn_substitute ho (occursIn_expandPath hh (mem_find_iff.1 ho).1 hn)
  simp [left] at h

end Leftover

end Reference

end DesignTokens
