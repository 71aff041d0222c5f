import DesignTokens.Diagnostic.Recorder
import DesignTokens.Proofs.Reference.Cycle
import DesignTokens.Proofs.Reference.Guard

/-!
# Expansion is substitution

Where no cycle can be reached, what a path stands for depends on the path alone. A `Meaning` gives
every path a text, and the steps that expanding it takes: those of the paths in the text of its token
from left to right, then those of the hook, once. No chain is spoken of.

The expansion of a text replaces its placeholders by what they mean, from every chain that has none
of the paths on it which the text can reach.
-/

namespace DesignTokens.Reference

open Relation

variable {tree : Tree} {hook : String → Traced String} {chain : List String}
variable {path other inner text : String}

/-- What the acyclic paths of a tree stand for, with a hook whose answers and steps depend on the
text alone that it is given. -/
structure Meaning (tree : Tree) (hook : String → Traced String) where
  /-- The text that the placeholder of a path is replaced by. -/
  text : String → String
  /-- The steps of replacing it. -/
  trace : String → List Step
  text_of_text : ∀ {path inner}, Acyclic tree path → target tree path = .text inner →
    text path = (hook (substitute text inner)).value
  trace_of_text : ∀ {path inner}, Acyclic tree path → target tree path = .text inner →
    trace path = .opened path :: (find inner).flatMap trace ++
      .expanded path (substitute text inner) :: (hook (substitute text inner)).steps ++
        [.closed path]
  of_typed : ∀ {path value}, target tree path = .typed value →
    text path = value.render ∧ trace path = []
  of_null : ∀ {path}, target tree path = .null →
    text path = placeholderText path ∧ trace path = [.raised (nullEvent path)]
  of_group : ∀ {path}, target tree path = .group →
    text path = placeholderText path ∧ trace path = [.raised (groupEvent path)]
  of_missing : ∀ {path}, target tree path = .missing →
    text path = placeholderText path ∧ trace path = [.raised (missingEvent path)]

/-- A text expands as its placeholders do. -/
theorem expandText_eq {put : String → String} {trace : String → List Step}
    (h : ∀ path ∈ find text, expandPath tree hook chain path = ⟨put path, trace path⟩) :
    expandText tree hook chain text = ⟨substitute put text, (find text).flatMap trace⟩ := by
  refine Traced.ext ?_ ?_
  · rw [value_expandText]
    exact substitute_congr fun path hp => congrArg Traced.value (h path hp)
  · rw [steps_expandText]
    exact List.flatMap_congr fun path hp => congrArg Traced.steps (h path hp)

section Chain

/-- A chain with none of the paths on it that can be reached from a path. -/
def Clear (tree : Tree) (chain : List String) (path : String) : Prop :=
  ∀ other, ReflTransGen (References tree) path other → other ∉ chain

theorem Clear.notMem (h : Clear tree chain path) : path ∉ chain := h path .refl

theorem Clear.nil (tree : Tree) (path : String) : Clear tree [] path := fun _ _ => by simp

/-- A chain that is clear for an acyclic path stays clear for the paths it refers to. -/
theorem Clear.push (h : Clear tree chain path) (ha : Acyclic tree path)
    (hr : References tree path other) : Clear tree (chain ++ [path]) other := by
  intro last hl hm
  rcases List.mem_append.1 hm with hm | hm
  · exact h last (.head hr hl) hm
  · obtain rfl : last = path := by simpa using hm
    exact ha.not_onCycle (TransGen.head' hr hl)

/-- No placeholder of an acyclic path is ever expanded along a chain that the path could reach: the
chain is a walk that leads to the path. -/
theorem Met.clear (h : Met tree text chain path) (ha : Acyclic tree path) :
    Clear tree chain path := by
  intro other hr hm
  obtain ⟨before, after, rfl⟩ := List.append_of_mem hm
  have walk := h.isChain
  rw [List.append_assoc] at walk
  have back : TransGen (References tree) other path := by
    have ht : (other :: (after ++ [path])).IsChain (TransGen (References tree)) :=
      walk.right_of_append.imp fun _ _ => .single
    exact ht.rel_cons (by simp)
  exact ha.not_onCycle (.trans_right hr back)

/-- An acyclic path expands in the same way along every clear chain. -/
theorem expandPath_eq_of_clear (ha : Acyclic tree path) (hc : Clear tree chain path) :
    expandPath tree hook chain path = expandPath tree hook [] path := by
  induction ha using Acyclic.induction generalizing chain with
  | text path inner ha ht ih =>
    have inside (chain : List String) (hc : Clear tree chain path) :
        expandText tree hook (chain ++ [path]) inner = expandText tree hook [] inner := by
      apply expandText_congr
      intro other ho
      exact ih other ho (hc.push ha ((references_iff ht).2 ho))
    rw [expandPath_text hook hc.notMem ht, expandPath_text hook (by simp) ht, inside chain hc,
      inside [] (Clear.nil tree path)]
  | other path ha ht => rw [expandPath_other hook hc.notMem ht, expandPath_other hook (by simp) ht]

/-- The text of an acyclic token expands inside the token as it does alone, along every clear chain. -/
theorem expandText_eq_of_clear (ha : Acyclic tree path) (ht : target tree path = .text inner)
    (hc : Clear tree chain path) :
    expandText tree hook (chain ++ [path]) inner = expandText tree hook [] inner := by
  apply expandText_congr
  intro other ho
  have hr : References tree path other := (references_iff ht).2 ho
  exact expandPath_eq_of_clear (ha.of_references hr) (hc.push ha hr)

/-- The text of an acyclic token expands inside the token as it does alone. -/
theorem expandText_eq_of_acyclic (ha : Acyclic tree path) (ht : target tree path = .text inner) :
    expandText tree hook [path] inner = expandText tree hook [] inner :=
  expandText_eq_of_clear ha ht (Clear.nil tree path)

/-- An acyclic token expands to what the hook makes of its expanded text. -/
theorem value_expandPath_text (ha : Acyclic tree path) (ht : target tree path = .text inner) :
    (expandPath tree hook [] path).value = (hook (expandText tree hook [] inner).value).value := by
  rw [expandPath_text hook (by simp) ht, List.nil_append, expandText_eq_of_acyclic ha ht]
  rfl

end Chain

namespace Meaning

/-- The meaning that expansion from the empty chain is. -/
def ofExpansion (tree : Tree) (hook : String → Traced String) : Meaning tree hook where
  text path := (expandPath tree hook [] path).value
  trace path := (expandPath tree hook [] path).steps
  text_of_text ha ht := by
    rw [value_expandPath_text ha ht, value_expandText]
  trace_of_text ha ht := by
    rw [expandPath_text hook (by simp) ht, List.nil_append, expandText_eq_of_acyclic ha ht]
    simp [value_expandText, steps_expandText]
  of_typed h := by simp [expandPath, h]
  of_null h := by
    simp only [expandPath, h]
    exact ⟨rfl, rfl⟩
  of_group h := by
    simp only [expandPath, h]
    exact ⟨rfl, rfl⟩
  of_missing h := by
    simp only [expandPath, h]
    exact ⟨rfl, rfl⟩

variable (d : Meaning tree hook)

/-- An acyclic path expands to what it means, along every clear chain. -/
theorem expandPath_eq (ha : Acyclic tree path) (hc : Clear tree chain path) :
    expandPath tree hook chain path = ⟨d.text path, d.trace path⟩ := by
  induction ha using Acyclic.induction generalizing chain with
  | text path inner ha ht ih =>
    have inside : expandText tree hook (chain ++ [path]) inner =
        ⟨substitute d.text inner, (find inner).flatMap d.trace⟩ := by
      apply expandText_eq
      intro other ho
      exact ih other ho (hc.push ha ((references_iff ht).2 ho))
    rw [expandPath_text hook hc.notMem ht, inside, d.text_of_text ha ht, d.trace_of_text ha ht]
    ext1 <;> simp
  | other path ha ht =>
    rw [expandPath_other hook hc.notMem ht]
    cases h : target tree path with
    | text inner => exact absurd h (ht inner)
    | typed value =>
      rw [(d.of_typed h).1, (d.of_typed h).2]
      rfl
    | null =>
      rw [(d.of_null h).1, (d.of_null h).2]
      rfl
    | group =>
      rw [(d.of_group h).1, (d.of_group h).2]
      rfl
    | missing =>
      rw [(d.of_missing h).1, (d.of_missing h).2]
      rfl

end Meaning

/-- Expansion is substitution. From a chain that a text without cycles cannot reach, the expansion of
the text is the text with every placeholder replaced by what its path means, and the steps are those
of the placeholders from left to right. There is such a meaning, and all give the same result. -/
theorem expansion_substitutes (hook : String → Traced String) (hn : ¬ ReachesCycle tree text)
    (hc : ∀ path, Reaches tree text path → path ∉ chain) :
    Nonempty (Meaning tree hook) ∧
      ∀ (d : Meaning tree hook) {σ : Type} [Observer σ] (state : σ),
        let run := Guarded.expandText tree (fun text => (hook text).perform) text
          (.start chain state)
        run.1 = substitute d.text text ∧ run.2.chain = chain ∧
          run.2.state = Observer.after state ((find text).flatMap d.trace) := by
  refine ⟨⟨.ofExpansion tree hook⟩, ?_⟩
  intro d σ _ state
  have expanded : expandText tree hook chain text =
      ⟨substitute d.text text, (find text).flatMap d.trace⟩ := by
    apply expandText_eq
    intro path hp
    apply d.expandPath_eq (acyclic_of_not_reachesCycle hn hp)
    intro other ho
    exact hc other ⟨path, mem_find_iff.1 hp, ho⟩
  have follows : Guarded.Follows (.start chain state)
      (Guarded.expandText tree (fun text => (hook text).perform) text)
      (expandText tree hook chain text) := by
    apply Guarded.follows_expandText _ _ rfl
    intro path _ s hs
    rw [← hs]
    exact Guarded.follows_expandPath (fun _ => rfl) path s
  rw [expanded] at follows
  exact ⟨follows.value, follows.chain, follows.state⟩

section Alias

/-- A tree in which `accent` stands for `base`. -/
def aliasTree : Tree :=
  let token (text : String) : Node := .token ⟨.string text, none, none, none, [], .plain⟩
  ⟨[("accent", token (placeholderText "base")), ("base", token "red")]⟩

/-- A hook that marks each text it is given. -/
def emphasize (text : String) : Traced String := pure (text ++ "!")

theorem target_accent : target aliasTree "accent" = .text (placeholderText "base") := rfl

theorem target_base : target aliasTree "base" = .text "red" := rfl

theorem references_accent : References aliasTree "accent" path ↔ path = "base" := by
  rw [references_iff target_accent, find_placeholderText (by decide), List.mem_singleton]

theorem not_references_base : ¬ References aliasTree "base" path := by
  rw [references_iff target_base, find_of_notMem (by decide)]
  exact List.not_mem_nil

theorem acyclic_base : Acyclic aliasTree "base" := by
  constructor
  intro path hr
  exact absurd hr not_references_base

theorem acyclic_accent : Acyclic aliasTree "accent" := by
  constructor
  intro path hr
  rw [references_accent.1 hr]
  exact acyclic_base

theorem mem_find_accent (h : path ∈ find (placeholderText "accent")) : path = "accent" := by
  rwa [find_placeholderText (by decide), List.mem_singleton] at h

theorem mem_of_reaches_accent (h : Reaches aliasTree (placeholderText "accent") path) :
    path ∈ ["accent", "base"] := by
  obtain ⟨start, hs, hr⟩ := h
  obtain rfl := mem_find_accent (mem_find_iff.2 hs)
  induction hr with
  | refl => simp
  | tail _ hr ih =>
    rcases List.mem_pair.1 ih with rfl | rfl
    · simp [references_accent.1 hr]
    · exact absurd hr not_references_base

theorem not_reachesCycle_accent : ¬ ReachesCycle aliasTree (placeholderText "accent") := by
  apply not_reachesCycle
  intro path hp
  rw [mem_find_accent hp]
  exact acyclic_accent

/-- From a chain with another path on it, the alias expands to the marked text of its base. -/
theorem expansion_substitutes_alias :
    ¬ ReachesCycle aliasTree (placeholderText "accent") ∧
      (∀ path, Reaches aliasTree (placeholderText "accent") path → path ∉ ["other"]) ∧
      (Guarded.expandText aliasTree (fun text => (emphasize text).perform)
        (placeholderText "accent") (.start ["other"] (Recorder.start none))).1 = "red!!" := by
  have clear : ∀ path, Reaches aliasTree (placeholderText "accent") path → path ∉ ["other"] := by
    intro path hr
    rcases List.mem_pair.1 (mem_of_reaches_accent hr) with rfl | rfl <;> decide
  obtain ⟨⟨d⟩, run⟩ := expansion_substitutes emphasize not_reachesCycle_accent clear
  refine ⟨not_reachesCycle_accent, clear, ?_⟩
  rw [(run d (Recorder.start none)).1, substitute_placeholderText (by decide),
    d.text_of_text acyclic_accent target_accent, substitute_placeholderText (by decide),
    d.text_of_text acyclic_base target_base, substitute_of_notMem (by decide)]
  rfl

end Alias

end DesignTokens.Reference
