import DesignTokens.Proofs.Reference.Guard
import DesignTokens.Proofs.Tree.Paths
import Mathlib.Data.List.Nodup
import Mathlib.Data.List.Perm.Subperm

/-!
# Expansion unwinds its guard

Expansion ends in every tree, from every chain and with every hook, and leaves the chain as it found
it. On the way the chain is the chain on entry with some paths behind it: paths of string tokens, none
of them twice, and so at most as many as the tree has tokens.

`Grown` is the invariant. A path is put on the chain only if it is not there yet and leads to a string
token, and taking it off gives an earlier chain. `Through` says it of all chains between two states.
-/

namespace DesignTokens

namespace Reference

variable {tree : Tree} {entry chain : List String} {path inner : String}

/-- Different paths of string tokens are at most as many as there are tokens. -/
theorem length_le_tokenCount {paths : List String} (hn : paths.Nodup)
    (ht : ∀ path ∈ paths, ∃ inner, TextAt tree path inner) : paths.length ≤ tree.tokenCount := by
  rw [← tree.length_paths]
  apply (List.subperm_of_subset hn _).length_le
  intro path hp
  obtain ⟨inner, hi⟩ := ht path hp
  exact mem_paths_of_target (textAt_iff.1 hi)

/-- A chain as expansion lets it grow from the chain on entry. -/
inductive Grown (tree : Tree) (entry : List String) : List String → Prop where
  | entry : Grown tree entry entry
  | push {chain : List String} {path inner : String} (grown : Grown tree entry chain)
      (fresh : path ∉ chain) (text : TextAt tree path inner) : Grown tree entry (chain ++ [path])

/-- What a chain holds besides the chain on entry. -/
structure Added (tree : Tree) (entry chain added : List String) : Prop where
  chain_eq : chain = entry ++ added
  nodup : added.Nodup
  text : ∀ path ∈ added, ∃ inner, TextAt tree path inner
  length_le : added.length ≤ tree.tokenCount

theorem Grown.exists_added (h : Grown tree entry chain) :
    ∃ added, Added tree entry chain added := by
  have parts : ∃ added, chain = entry ++ added ∧ added.Nodup ∧
      ∀ path ∈ added, ∃ inner, TextAt tree path inner := by
    induction h with
    | entry => exact ⟨[], by simp⟩
    | @push chain path inner _ fresh text ih =>
      obtain ⟨added, rfl, hn, ht⟩ := ih
      refine ⟨added ++ [path], by simp, ?_, ?_⟩
      · have hp : path ∉ added := fun hp => fresh (List.mem_append_right _ hp)
        exact hn.append (List.nodup_singleton path) (by simpa using hp)
      · intro p hp
        rcases List.mem_append.1 hp with hp | hp
        · exact ht p hp
        · obtain rfl : p = path := by simpa using hp
          exact ⟨inner, text⟩
  obtain ⟨added, he, hn, ht⟩ := parts
  exact ⟨added, he, hn, ht, length_le_tokenCount hn ht⟩

namespace Guarded

variable {σ : Type} [Observer σ] {s s' s'' : Guarded σ}
variable {hook : String → StateM σ String}

/-- Every chain that there was between two states has grown from the chain on entry. -/
def Through (tree : Tree) (entry : List String) (s s' : Guarded σ) : Prop :=
  ∃ chains, s'.past = chains ++ s.past ∧ ∀ chain ∈ chains, Grown tree entry chain

namespace Through

omit [Observer σ] in
theorem of_past (h : s'.past = s.past) : Through tree entry s s' := ⟨[], by simp [h]⟩

omit [Observer σ] in
theorem trans (h : Through tree entry s s') (h' : Through tree entry s' s'') :
    Through tree entry s s'' := by
  obtain ⟨chains, hp, hg⟩ := h
  obtain ⟨more, hp', hg'⟩ := h'
  refine ⟨more ++ chains, by simp [hp, hp'], ?_⟩
  intro chain hm
  rcases List.mem_append.1 hm with hm | hm
  · exact hg' chain hm
  · exact hg chain hm

theorem push (hs : Grown tree entry s.chain) (path : String) :
    Through tree entry s (s.push path) := ⟨[s.chain], by simp [Guarded.push, hs]⟩

theorem pop (hs : Grown tree entry s.chain) (path : String) :
    Through tree entry s (s.pop path) := ⟨[s.chain], by simp [Guarded.pop, hs]⟩

theorem leave (hs : Grown tree entry s.chain) (path text : String) :
    Through tree entry s (Guarded.leave hook path text s).2 :=
  ⟨[s.chain], by simp [past_leave, hs]⟩

end Through

section Run

/-- Parts are expanded as their placeholders are. -/
theorem through_expandAll {parts : List Part}
    (h : ∀ path ∈ parts.filterMap Part.path?, ∀ s : Guarded σ, s.chain = chain →
      Through tree entry s (expandPath tree hook path s).2)
    (s : Guarded σ) (hs : s.chain = chain) :
    Through tree entry s (expandAll tree hook parts s).2 := by
  induction parts generalizing s with
  | nil =>
    rw [expandAll_nil]
    exact .of_past rfl
  | cons part parts ih =>
    cases part with
    | char c =>
      rw [expandAll_char]
      exact ih (fun p hp => h p (by simpa [Part.path?] using hp)) s hs
    | placeholder path =>
      rw [expandAll_placeholder]
      have first := h path (by simp [Part.path?]) s hs
      refine first.trans (ih (fun p hp => h p (by simp [Part.path?, hp])) _ ?_)
      rw [chain_expandPath]
      exact hs

/-- Expanding a placeholder keeps the invariant of the chain. -/
theorem through_expandPath (hs : Grown tree entry s.chain) (path : String) :
    Through tree entry s (expandPath tree hook path s).2 := by
  induction path, s using expand_induction tree with
  | known path s hc =>
    rw [expandPath_of_mem hc]
    exact .of_past rfl
  | text path s inner hc ht ih =>
    have grown : Grown tree entry (s.push path).chain := hs.push hc (textAt_iff.2 ht)
    have inside : Through tree entry (s.push path) (expandText tree hook inner (s.push path)).2 :=
      through_expandAll (fun other ho s' hs' => ih other ho s' hs' (hs' ▸ grown)) _ rfl
    rw [expandPath_text hc ht]
    refine ((Through.push hs path).trans inside).trans (Through.leave ?_ path _)
    rw [chain_expandText]
    exact grown
  | other path s hc ht =>
    rw [expandPath_other hc ht]
    cases h : target tree path with
    | text inner => exact absurd h (ht inner)
    | _ => exact .of_past rfl

/-- Following whole-value references keeps the invariant of the chain. -/
theorem through_typedTarget (hs : Grown tree entry s.chain) (path : String) :
    Through tree entry s (typedTarget tree path s).2 := by
  induction path, s using follow_induction tree with
  | known path s hc =>
    rw [typedTarget_of_mem hc]
    exact .of_past rfl
  | next path s inner next hc ht hn ih =>
    have grown : Grown tree entry (s.push path).chain := hs.push hc (textAt_iff.2 ht)
    have inside := ih (s.push path) rfl grown
    rw [typedTarget_text hc ht hn]
    refine ((Through.push hs path).trans inside).trans (Through.pop ?_ path)
    rw [chain_typedTarget]
    exact grown
  | ends path s hc ht =>
    rw [typedTarget_other hc ht]
    exact .of_past rfl

theorem through_wholeValue (hs : Grown tree entry s.chain) (text : String) :
    Through tree entry s (wholeValue tree text s).2 := by
  rw [wholeValue]
  cases single? text with
  | none => exact .of_past rfl
  | some path =>
    have followed := through_typedTarget hs path
    simp only [Observer.bind_apply]
    cases (typedTarget tree path s).1 with
    | none => exact followed
    | some value => exact followed.trans (.of_past rfl)

theorem through_expandText (hs : Grown tree entry s.chain) (text : String) :
    Through tree entry s (expandText tree hook text s).2 :=
  through_expandAll (fun path _ _ hs' => through_expandPath (hs' ▸ hs) path) s rfl

theorem through_resolveValue (hs : Grown tree entry s.chain) (value : Json) :
    Through tree entry s (resolveValue tree hook value s).2 := by
  cases value with
  | string text =>
    have whole := through_wholeValue hs text
    rw [resolveValue, Observer.bind_apply]
    cases (wholeValue tree text s).1 with
    | none =>
      refine whole.trans (through_expandText ?_ text)
      rw [chain_wholeValue]
      exact hs
    | some value => exact whole
  | _ => exact .of_past rfl

end Run

/-- What an expansion leaves behind that began with the chain `entry`: the same chain, and before it
only chains that hold some paths more. -/
structure Unwinds (tree : Tree) (entry : List String) (s : Guarded σ) : Prop where
  chain_eq : s.chain = entry
  past : ∀ chain ∈ s.past, ∃ added, Added tree entry chain added

omit [Observer σ] in
theorem Unwinds.of_through {state : σ} (h : Through tree entry (start entry state) s)
    (hs : s.chain = entry) : Unwinds tree entry s := by
  obtain ⟨chains, hp, hg⟩ := h
  refine ⟨hs, ?_⟩
  intro chain hc
  apply (hg chain _).exists_added
  simpa [hp, start] using hc

/-- Expansion ends and unwinds its guard, in every tree, from every chain, with every hook: nested
expansions are well founded, every single one returns with the chain it was entered with, and the
chains in between hold different paths of string tokens besides, at most as many as there are tokens. -/
theorem expansion_unwinds (tree : Tree) (hook : String → StateM σ String) (entry : List String)
    (state : σ) :
    WellFounded (Nested tree) ∧
      (∀ path (s : Guarded σ), (expandPath tree hook path s).2.chain = s.chain ∧
        (typedTarget tree path s).2.chain = s.chain) ∧
      (∀ text, Unwinds tree entry (expandText tree hook text (start entry state)).2) ∧
      (∀ path, Unwinds tree entry (typedTarget tree path (start entry state)).2) ∧
      ∀ value, Unwinds tree entry (resolveValue tree hook value (start entry state)).2 := by
  have grown : Grown tree entry (start entry state).chain := .entry
  refine ⟨Nested.wellFounded tree, ?_, ?_, ?_, ?_⟩
  · intro path s
    exact ⟨chain_expandPath tree hook path s, chain_typedTarget tree path s⟩
  · intro text
    exact .of_through (through_expandText grown text) (chain_expandText tree hook text _)
  · intro path
    exact .of_through (through_typedTarget grown path) (chain_typedTarget tree path _)
  · intro value
    exact .of_through (through_resolveValue grown value) (chain_resolveValue tree hook value _)

end Guarded

end Reference

end DesignTokens
