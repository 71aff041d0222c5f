import DesignTokens.Proofs.Reference.Chain

/-!
# Cycles are found

Expansion is complete about cycles: a placeholder whose expansion raises no cycle stands for an
acyclic path, whatever is on the chain. It is sound about them as well: along a chain in which every
path refers to the next, a cycle is raised only with a walk that comes back to a path it has met, and
that walk begins with the chain.

Following whole-value references raises nothing, and ends in a value only on an acyclic path.
-/

namespace DesignTokens.Reference

variable {tree : Tree} {hook : String → Traced String} {chain : List String}
variable {path inner text : String} {e : Event}

@[simp] theorem events_keep (path : String) (reason : Event) :
    (keep path reason).events = [reason] := rfl

@[simp] theorem code_cycleEvent (chain : List String) (path : String) :
    (cycleEvent chain path).code = .referenceCycle := rfl

@[simp] theorem code_nullEvent (path : String) : (nullEvent path).code = .invalidToken := rfl

@[simp] theorem code_groupEvent (path : String) : (groupEvent path).code = .referenceToGroup := rfl

@[simp] theorem code_missingEvent (path : String) :
    (missingEvent path).code = .unresolvedReference := rfl

theorem mem_events_expandText :
    e ∈ (expandText tree hook chain text).events ↔
      ∃ path ∈ find text, e ∈ (expandPath tree hook chain path).events := by
  simp [Traced.events, steps_expandText, List.filterMap_flatMap]

/-- The events of a string token are those of its text and those of the hook. -/
theorem events_expandPath_text (hc : path ∉ chain) (ht : target tree path = .text inner) :
    (expandPath tree hook chain path).events =
      (expandText tree hook (chain ++ [path]) inner).events ++
        (hook (expandText tree hook (chain ++ [path]) inner).value).events := by
  rw [expandPath_text hook hc ht]
  simp [Step.raised?]

section Complete

/-- An expansion that raises no cycle has only met acyclic paths. -/
theorem acyclic_or_raises (tree : Tree) (hook : String → Traced String) (chain : List String)
    (path : String) :
    Acyclic tree path ∨ (expandPath tree hook chain path).raises .referenceCycle = true := by
  induction chain, path using expand_induction tree with
  | known chain path hc =>
    right
    rw [expandPath_of_mem hook hc, Traced.raises_iff]
    exact ⟨cycleEvent chain path, by simp, rfl⟩
  | text chain path inner hc ht ih =>
    by_cases hall : ∀ other ∈ find inner, Acyclic tree other
    · left
      exact Acyclic.of_text ht hall
    · right
      obtain ⟨other, ho, hn⟩ : ∃ other ∈ find inner, ¬ Acyclic tree other := by simpa using hall
      obtain ⟨e, he, hcode⟩ := Traced.raises_iff.1 ((ih other ho).resolve_left hn)
      rw [Traced.raises_iff, events_expandPath_text hc ht]
      exact ⟨e, List.mem_append_left _ (mem_events_expandText.2 ⟨other, ho, he⟩), hcode⟩
  | other chain path hc ht =>
    left
    exact Acyclic.of_target ht

/-- A text that reaches a cycle raises one. -/
theorem raises_expandText (h : ReachesCycle tree text) :
    (expandText tree hook chain text).raises .referenceCycle = true := by
  by_contra hn
  refine not_reachesCycle ?_ h
  intro path hp
  apply (acyclic_or_raises tree hook chain path).resolve_right
  intro hr
  apply hn
  obtain ⟨e, he, hcode⟩ := Traced.raises_iff.1 hr
  exact Traced.raises_iff.2 ⟨e, mem_events_expandText.2 ⟨path, hp, he⟩, hcode⟩

end Complete

section Sound

/-- An event that tells of a walk of references which begins with some paths and comes back to a path
that it has met. -/
def Reports (tree : Tree) (entry : List String) (e : Event) : Prop :=
  ∃ walk last, e = cycleEvent walk last ∧ entry <+: walk ++ [last] ∧ last ∈ walk ∧
    (walk ++ [last]).IsChain (References tree)

/-- A hook that raises no cycle of its own. -/
def Quiet (hook : String → Traced String) : Prop :=
  ∀ text, ∀ e ∈ (hook text).events, e.code ≠ .referenceCycle

/-- A cycle is raised with a walk that goes on from the chain. -/
theorem reports_of_expandPath (hh : Quiet hook) (hw : (chain ++ [path]).IsChain (References tree))
    (he : e ∈ (expandPath tree hook chain path).events) (hcode : e.code = .referenceCycle) :
    Reports tree (chain ++ [path]) e := by
  induction chain, path using expand_induction tree with
  | known chain path hc =>
    rw [expandPath_of_mem hook hc] at he
    obtain rfl : e = cycleEvent chain path := by simpa using he
    exact ⟨chain, path, rfl, List.prefix_rfl, hc, hw⟩
  | text chain path inner hc ht ih =>
    rw [events_expandPath_text hc ht] at he
    rcases List.mem_append.1 he with he | he
    · obtain ⟨other, ho, he⟩ := mem_events_expandText.1 he
      have further : (chain ++ [path] ++ [other]).IsChain (References tree) := by
        apply hw.append (.singleton other)
        simpa using (references_iff ht).2 ho
      obtain ⟨walk, last, rfl, hp, hl, hr⟩ := ih other ho further he
      exact ⟨walk, last, rfl, (List.prefix_append _ [other]).trans hp, hl, hr⟩
    · exact absurd hcode (hh _ e he)
  | other chain path hc ht =>
    rw [expandPath_other hook hc ht] at he
    cases h : target tree path with
    | text inner => exact absurd h (ht inner)
    | typed value => simp [h] at he
    | _ =>
      obtain rfl : e = _ := by simpa [h] using he
      exact absurd hcode (by simp [Code.invalidToken, Code.referenceToGroup,
        Code.unresolvedReference, Code.referenceCycle])

/-- The walk of a report goes round a cycle that can be reached from its first path. -/
theorem Reports.exists_onCycle {start : String} (h : Reports tree [start] e) :
    ∃ last, Relation.ReflTransGen (References tree) start last ∧ OnCycle tree last := by
  obtain ⟨walk, last, -, ⟨others, hs⟩, hl, hw⟩ := h
  have hs : start :: others = walk ++ [last] := hs
  refine ⟨last, reflTransGen_of_mem_walk (hs ▸ hw) ?_, onCycle_of_walk hw hl⟩
  rw [hs]
  exact List.mem_append_right _ (by simp)

theorem reports_of_expandText (hh : Quiet hook)
    (he : e ∈ (expandText tree hook [] text).events) (hcode : e.code = .referenceCycle) :
    ∃ start, Occurs start text ∧ Reports tree [start] e := by
  obtain ⟨start, hs, he⟩ := mem_events_expandText.1 he
  exact ⟨start, mem_find_iff.1 hs, reports_of_expandPath hh (.singleton start) he hcode⟩

/-- Expansion raises a cycle exactly if one can be reached. -/
theorem raises_expandText_iff (hh : Quiet hook) :
    (expandText tree hook [] text).raises .referenceCycle = true ↔ ReachesCycle tree text := by
  constructor
  · intro hr
    obtain ⟨e, he, hcode⟩ := Traced.raises_iff.1 hr
    obtain ⟨start, hs, hrep⟩ := reports_of_expandText hh he hcode
    obtain ⟨last, hl, hc⟩ := hrep.exists_onCycle
    exact ⟨last, ⟨start, hs, hl⟩, hc⟩
  · exact raises_expandText

/-- A text that reaches no cycle refers to acyclic paths only. -/
theorem acyclic_of_not_reachesCycle (h : ¬ ReachesCycle tree text) (hp : path ∈ find text) :
    Acyclic tree path := by
  have quiet : Quiet pure := by
    intro text e he
    simp at he
  apply (acyclic_or_raises tree pure [] path).resolve_right
  intro hr
  obtain ⟨e, he, hcode⟩ := Traced.raises_iff.1 hr
  have found : (expandText tree pure [] text).raises .referenceCycle = true :=
    Traced.raises_iff.2 ⟨e, mem_events_expandText.2 ⟨path, hp, he⟩, hcode⟩
  exact h ((raises_expandText_iff quiet).1 found)

end Sound

section TypedTarget

/-- Following whole-value references raises nothing. -/
@[simp] theorem events_typedTarget (tree : Tree) (chain : List String) (path : String) :
    (typedTarget tree chain path).events = [] := by
  induction chain, path using follow_induction tree with
  | known chain path hc =>
    rw [typedTarget_of_mem hc]
    rfl
  | next chain path inner next hc ht hn ih =>
    rw [typedTarget_text hc ht hn]
    simp [ih, Step.raised?]
  | ends chain path hc ht =>
    rw [typedTarget_other hc ht]
    rfl

/-- Whole-value references that lead to a value of another type run into no cycle. -/
theorem acyclic_of_typedTarget {value : Json}
    (h : (typedTarget tree chain path).value = some value) : Acyclic tree path := by
  induction h using typed_induction with
  | ends chain path _ hc ht =>
    apply Acyclic.of_target
    intro inner hi
    simp [hi] at ht
  | next chain path inner next _ _ hc ht hs ih =>
    apply Acyclic.of_text ht
    simpa [find_eq_of_single? hs] using ih

@[simp] theorem events_wholeValue (tree : Tree) (chain : List String) (text : String) :
    (wholeValue tree chain text).events = [] := by
  rw [wholeValue]
  cases single? text with
  | none => rfl
  | some path =>
    cases h : (typedTarget tree chain path).value <;> simp [h, Step.raised?]

/-- A text that stands for a value of another type reaches no cycle. -/
theorem not_reachesCycle_of_wholeValue {value : Json}
    (h : (wholeValue tree chain text).value = some value) : ¬ ReachesCycle tree text := by
  rw [wholeValue] at h
  cases hs : single? text with
  | none => simp [hs] at h
  | some path =>
    apply not_reachesCycle
    intro other ho
    obtain rfl : other = path := by simpa [find_eq_of_single? hs] using ho
    cases ht : (typedTarget tree chain other).value with
    | none => simp [hs, ht] at h
    | some value => exact acyclic_of_typedTarget ht

end TypedTarget

end DesignTokens.Reference
