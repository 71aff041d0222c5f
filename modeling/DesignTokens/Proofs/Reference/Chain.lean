import DesignTokens.Proofs.Reference.Graph

/-!
# Expanding along a chain

While one placeholder is expanded, the placeholders in the text of its token are. This nesting is well
founded in every tree, with cycles or without: `Nested.wellFounded`. Statements about expansion are
proved by induction on it.

With the chain as an argument, the expansion of a text is put together from the expansions of its
placeholders: the text by `substitute`, the trace by appending.
-/

namespace DesignTokens.Reference

open Relation

/-- The placeholder that `a` holds with its chain is expanded in the course of expanding the one of
`b`: the path of `b` is not on its chain yet and refers to the path of `a`. -/
def Nested (tree : Tree) (a b : List String × String) : Prop :=
  b.2 ∉ b.1 ∧ a.1 = b.1 ++ [b.2] ∧ References tree b.2 a.2

/-- Expansions are nested only finitely deep. -/
theorem Nested.wellFounded (tree : Tree) : WellFounded (Nested tree) := by
  refine Subrelation.wf (r := InvImage (· < ·) fun a => remaining tree a.1) ?_
    (InvImage.wf _ Nat.lt_wfRel.wf)
  rintro ⟨chain, path⟩ ⟨entry, start⟩ ⟨hc, rfl, hr⟩
  obtain ⟨inner, ht, -⟩ := target_of_references hr
  exact remaining_lt (by simpa using hc) ht

/-- In the course of expanding a text, the placeholder of a path is expanded along a chain: it stands in
the text itself, or in the text of a token that is expanded in the course of it. -/
def Met (tree : Tree) (text : String) (chain : List String) (path : String) : Prop :=
  ∃ start ∈ find text, ReflTransGen (fun outer inner => Nested tree inner outer) ([], start) (chain, path)

/-- A chain along which a placeholder is expanded is a walk of references that leads to its path. -/
theorem Met.isChain {tree : Tree} {text path : String} {chain : List String}
    (h : Met tree text chain path) : (chain ++ [path]).IsChain (References tree) := by
  obtain ⟨start, -, hr⟩ := h
  generalize he : (chain, path) = last at hr
  induction hr generalizing chain path with
  | refl =>
    obtain ⟨rfl, rfl⟩ := by simpa using he
    exact .singleton path
  | @tail outer inner _ hn ih =>
    subst he
    obtain ⟨-, rfl, hr⟩ := hn
    apply List.IsChain.append (ih rfl) (.singleton path)
    simpa using hr

/-- Induction along the expansion of a placeholder: its path may be on the chain already, lead to a
string token, in the text of which placeholders are expanded, or lead elsewhere. -/
theorem expand_induction (tree : Tree) {P : List String → String → Prop}
    (known : ∀ chain path, path ∈ chain → P chain path)
    (text : ∀ chain path inner, path ∉ chain → target tree path = .text inner →
      (∀ other ∈ find inner, P (chain ++ [path]) other) → P chain path)
    (other : ∀ chain path, path ∉ chain → (∀ inner, target tree path ≠ .text inner) → P chain path)
    (chain : List String) (path : String) : P chain path := by
  have h := (Nested.wellFounded tree).induction (C := fun a => P a.1 a.2) (chain, path)
  refine h ?_
  rintro ⟨chain, path⟩ ih
  by_cases hc : path ∈ chain
  · exact known chain path hc
  by_cases hn : ∃ inner, target tree path = .text inner
  · obtain ⟨inner, ht⟩ := hn
    apply text chain path inner hc ht
    intro next ho
    exact ih (chain ++ [path], next) ⟨hc, rfl, (references_iff ht).2 ho⟩
  · exact other chain path hc fun inner ht => hn ⟨inner, ht⟩

/-- Induction along whole-value references: the path of one may be on the chain already, lead to a
text that is the next one, or end them. -/
theorem follow_induction (tree : Tree) {P : List String → String → Prop}
    (known : ∀ chain path, path ∈ chain → P chain path)
    (next : ∀ chain path inner next, path ∉ chain → target tree path = .text inner →
      single? inner = some next → P (chain ++ [path]) next → P chain path)
    (ends : ∀ chain path, path ∉ chain →
      (∀ inner next, target tree path = .text inner → single? inner ≠ some next) → P chain path)
    (chain : List String) (path : String) : P chain path := by
  induction chain, path using expand_induction tree with
  | known chain path hc => exact known chain path hc
  | text chain path inner hc ht ih =>
    cases hs : single? inner with
    | none =>
      apply ends chain path hc
      intro text other ht' hs'
      obtain rfl : inner = text := by simpa [ht] using ht'
      simp [hs] at hs'
    | some path' =>
      exact next chain path inner path' hc ht hs (ih path' (mem_find_of_single? hs))
  | other chain path hc ht => exact ends chain path hc fun inner _ h => absurd h (ht inner)

section Traced

variable (tree : Tree) (hook : String → Traced String) (chain : List String)

/-- The text that the placeholder of a path expands to. -/
def expandPath (path : String) : Traced String :=
  if chain.contains path then keep path (cycleEvent chain path)
  else
    match target tree path with
    | .text inner => do
      Tracing.step (.opened path)
      let inside ← expandText tree hook (chain ++ [path]) inner
      Tracing.step (.expanded path inside)
      let text ← hook inside
      Tracing.step (.closed path)
      pure text
    | .typed value => pure value.render
    | .null => keep path (nullEvent path)
    | .group => keep path (groupEvent path)
    | .missing => keep path (missingEvent path)

theorem expandParts_placeholder (path : String) (parts : List Part) :
    expandParts tree hook chain (.placeholder path :: parts) =
      expandPath tree hook chain path >>= fun text =>
        expandParts tree hook chain parts >>= fun others => pure (text.toList ++ others) := by
  rw [expandParts, expandPath]
  by_cases hc : chain.contains path = true
  · rw [dif_pos hc, if_pos hc]
  · rw [dif_neg hc, if_neg hc]
    congr 1
    split <;> rename_i ht <;> simp only [ht]
    ext1 <;> simp [expandText]

theorem value_expandParts (parts : List Part) :
    (expandParts tree hook chain parts).value =
      parts.flatMap (Part.fill fun path => (expandPath tree hook chain path).value) := by
  induction parts with
  | nil => rw [expandParts]; rfl
  | cons part parts ih =>
    cases part with
    | char c =>
      rw [expandParts]
      simp [ih, Part.fill]
    | placeholder path =>
      rw [expandParts_placeholder]
      simp [ih, Part.fill]

theorem steps_expandParts (parts : List Part) :
    (expandParts tree hook chain parts).steps =
      (parts.filterMap Part.path?).flatMap fun path => (expandPath tree hook chain path).steps := by
  induction parts with
  | nil => rw [expandParts]; rfl
  | cons part parts ih =>
    cases part with
    | char c =>
      rw [expandParts]
      simp [ih, Part.path?, List.filterMap_cons]
    | placeholder path =>
      rw [expandParts_placeholder]
      simp [ih, Part.path?]

/-- The placeholders of a text are replaced by what they expand to. -/
theorem value_expandText (text : String) :
    (expandText tree hook chain text).value =
      substitute (fun path => (expandPath tree hook chain path).value) text := by
  simp [expandText, value_expandParts, substitute]

/-- The placeholders of a text are expanded from left to right. -/
theorem steps_expandText (text : String) :
    (expandText tree hook chain text).steps =
      (find text).flatMap fun path => (expandPath tree hook chain path).steps := by
  simp [expandText, steps_expandParts, find_eq]

variable {tree chain}

variable {hook} in
/-- A text expands in two ways alike if its placeholders do: along two chains, in two trees, or with
two hooks. -/
theorem expandText_congr {tree' : Tree} {hook' : String → Traced String} {chain' : List String}
    {text : String}
    (h : ∀ path ∈ find text, expandPath tree hook chain path = expandPath tree' hook' chain' path) :
    expandText tree hook chain text = expandText tree' hook' chain' text := by
  refine Traced.ext ?_ ?_
  · rw [value_expandText, value_expandText]
    exact substitute_congr fun path hp => congrArg Traced.value (h path hp)
  · rw [steps_expandText, steps_expandText]
    exact List.flatMap_congr fun path hp => congrArg Traced.steps (h path hp)

variable {hook} in
/-- A text expands to the same text in two ways if its placeholders do. -/
theorem value_expandText_congr {tree' : Tree} {hook' : String → Traced String}
    {chain' : List String} {text : String}
    (h : ∀ path ∈ find text,
      (expandPath tree hook chain path).value = (expandPath tree' hook' chain' path).value) :
    (expandText tree hook chain text).value = (expandText tree' hook' chain' text).value := by
  rw [value_expandText, value_expandText]
  exact substitute_congr h

/-- A text that is a placeholder expands as the placeholder does. -/
theorem expandText_placeholderText {path : String} (hp : isPath path.toList) :
    expandText tree hook chain (placeholderText path) = expandPath tree hook chain path := by
  refine Traced.ext ?_ ?_
  · rw [value_expandText, substitute_placeholderText hp]
  · rw [steps_expandText, find_placeholderText hp, List.flatMap_singleton]

theorem expandPath_of_mem {path : String} (hc : path ∈ chain) :
    expandPath tree hook chain path = keep path (cycleEvent chain path) := by
  simp [expandPath, hc]

theorem expandPath_text {path inner : String} (hc : path ∉ chain)
    (ht : target tree path = .text inner) :
    expandPath tree hook chain path = (do
      Tracing.step (.opened path)
      let inside ← expandText tree hook (chain ++ [path]) inner
      Tracing.step (.expanded path inside)
      let text ← hook inside
      Tracing.step (.closed path)
      pure text) := by
  simp [expandPath, hc, ht]

/-- Any other token has a text right away, and may raise a diagnostic. -/
theorem expandPath_other {path : String} (hc : path ∉ chain)
    (ht : ∀ inner, target tree path ≠ .text inner) :
    expandPath tree hook chain path =
      match target tree path with
      | .typed value => pure value.render
      | .null => keep path (nullEvent path)
      | .group => keep path (groupEvent path)
      | _ => keep path (missingEvent path) := by
  rw [expandPath, if_neg (by simpa using hc)]
  cases h : target tree path with
  | text inner => exact absurd h (ht inner)
  | _ => rfl

theorem typedTarget_of_mem {path : String} (hc : path ∈ chain) :
    typedTarget tree chain path = pure none := by
  rw [typedTarget, dif_pos (by simpa using hc)]

theorem typedTarget_text {path inner next : String} (hc : path ∉ chain)
    (ht : target tree path = .text inner) (hn : single? inner = some next) :
    typedTarget tree chain path = (do
      Tracing.step (.opened path)
      let value ← typedTarget tree (chain ++ [path]) next
      Tracing.step (.closed path)
      pure value) := by
  rw [typedTarget, dif_neg (by simpa using hc)]
  split
  · rename_i text h
    obtain rfl : inner = text := by simpa [ht] using h
    rw [hn]
  · rename_i h
    simp [ht] at h
  · rename_i h _
    exact absurd ht (h inner)

theorem typedTarget_other {path : String} (hc : path ∉ chain)
    (ht : ∀ inner next, target tree path = .text inner → single? inner ≠ some next) :
    typedTarget tree chain path =
      pure (match target tree path with
        | .typed value => some value
        | _ => none) := by
  rw [typedTarget, dif_neg (by simpa using hc)]
  split
  · rename_i h
    simp only [h]
    split
    · rfl
    · rename_i hn
      exact absurd hn (ht _ _ h)
  · rename_i h
    simp only [h]
  · rename_i hv
    split
    · rename_i h
      exact absurd h (hv _)
    · rfl

/-- Induction along the whole-value references that lead from a path to a value: the path leads to the
value itself, or to a text that is the next reference. -/
theorem typed_induction {value : Json}
    {P : ∀ chain path, (typedTarget tree chain path).value = some value → Prop}
    (ends : ∀ chain path h, path ∉ chain → target tree path = .typed value → P chain path h)
    (next : ∀ chain path inner next h h', path ∉ chain → target tree path = .text inner →
      single? inner = some next → P (chain ++ [path]) next h' → P chain path h)
    {chain : List String} {path : String} (h : (typedTarget tree chain path).value = some value) :
    P chain path h := by
  induction chain, path using follow_induction tree with
  | known chain path hc => simp [typedTarget_of_mem hc] at h
  | next chain path inner other hc ht hs ih =>
    have rest := h
    rw [typedTarget_text hc ht hs] at rest
    exact next chain path inner other h rest hc ht hs (ih rest)
  | ends chain path hc ht =>
    have found := h
    rw [typedTarget_other hc ht] at found
    cases hv : target tree path with
    | typed value' =>
      obtain rfl : value' = value := by simpa [hv] using found
      exact ends chain path h hc hv
    | _ => simp [hv] at found

end Traced

end DesignTokens.Reference
