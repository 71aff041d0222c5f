import DesignTokens.Proofs.Reference.Chain
import DesignTokens.Reference.Guard

/-!
# Expansion under a guard, case by case

The equations of guarded expansion, one for each way a path can lead, and induction on the nesting of
expansions. From them: with a hook that is a trace, expansion under a guard has the value of expansion
along a chain, and takes exactly its steps in. So the chain that the program changes as it goes is at
every placeholder the chain that is passed down as an argument.
-/

namespace DesignTokens.Reference.Guarded

variable {σ : Type} [Observer σ] {s : Guarded σ} {hook : String → StateM σ String}
variable {tree : Tree} {chain : List String} {path inner : String}

section Cases

theorem expandAll_nil : expandAll tree hook [] = pure [] := by
  funext s
  rw [expandAll, expandParts]
  rfl

theorem expandAll_char (c : Char) (parts : List Part) :
    expandAll tree hook (.char c :: parts) =
      expandAll tree hook parts >>= fun others => pure (c :: others) := by
  funext s
  rw [expandAll, expandParts]
  rfl

theorem expandAll_placeholder (path : String) (parts : List Part) :
    expandAll tree hook (.placeholder path :: parts) =
      expandPath tree hook path >>= fun text =>
        expandAll tree hook parts >>= fun others => pure (text.toList ++ others) := by
  funext s
  rw [expandAll, expandParts]
  rfl

theorem expandPath_of_mem (hc : path ∈ s.chain) :
    expandPath tree hook path s = (s.keep path (cycleEvent s.chain path)).run := by
  rw [expandPath, expand, dif_pos (by simpa using hc)]

/-- A token with a string value is entered, its text is expanded, and it is left. -/
theorem expandPath_text (hc : path ∉ s.chain) (ht : target tree path = .text inner) :
    expandPath tree hook path s =
      (expandText tree hook inner >>= leave hook path) (s.push path) := by
  rw [expandPath, expand, dif_neg (by simpa using hc)]
  split
  · rename_i text h
    obtain rfl : inner = text := by simpa [ht] using h
    rfl
  all_goals
    rename_i h
    simp [ht] at h

/-- Any other token has a text right away, and may raise a diagnostic. -/
theorem expandPath_other (hc : path ∉ s.chain) (ht : ∀ inner, target tree path ≠ .text inner) :
    expandPath tree hook path s =
      match target tree path with
      | .typed value => (value.render, s)
      | .null => (s.keep path (nullEvent path)).run
      | .group => (s.keep path (groupEvent path)).run
      | _ => (s.keep path (missingEvent path)).run := by
  rw [expandPath, expand, dif_neg (by simpa using hc)]
  split <;> rename_i h <;> simp only [h]
  · exact absurd h (ht _)
  · rfl

theorem typedTarget_of_mem (hc : path ∈ s.chain) : typedTarget tree path s = (none, s) := by
  rw [typedTarget, follow, dif_pos (by simpa using hc)]
  rfl

/-- A whole-value reference is followed on from a token with a string value. -/
theorem typedTarget_text {next : String} (hc : path ∉ s.chain)
    (ht : target tree path = .text inner) (hn : single? inner = some next) :
    typedTarget tree path s =
      ((typedTarget tree next (s.push path)).1,
        (typedTarget tree next (s.push path)).2.pop path) := by
  rw [typedTarget, follow, dif_neg (by simpa using hc)]
  split
  · rename_i text h
    obtain rfl : inner = text := by simpa [ht] using h
    rw [hn]
    rfl
  · rename_i h
    simp [ht] at h
  · rename_i h _
    exact absurd ht (h inner)

/-- Any other token ends the following of references. -/
theorem typedTarget_other (hc : path ∉ s.chain)
    (ht : ∀ inner next, target tree path = .text inner → single? inner ≠ some next) :
    typedTarget tree path s =
      (match target tree path with
        | .typed value => some value
        | _ => none, s) := by
  rw [typedTarget, follow, dif_neg (by simpa using hc)]
  split
  · rename_i h
    simp only [h]
    split
    · rfl
    · rename_i hn
      exact absurd hn (ht _ _ h)
  · rename_i h
    simp only [h]
    rfl
  · rename_i hn hv
    split
    · rename_i h
      exact absurd h (hv _)
    · rfl

end Cases

section Induction

omit [Observer σ] in
/-- `Reference.expand_induction`, with the chain in a state. -/
theorem expand_induction (tree : Tree) {P : String → Guarded σ → Prop}
    (known : ∀ path (s : Guarded σ), path ∈ s.chain → P path s)
    (text : ∀ path (s : Guarded σ) inner, path ∉ s.chain → target tree path = .text inner →
      (∀ other ∈ find inner, ∀ s' : Guarded σ, s'.chain = s.chain ++ [path] → P other s') →
        P path s)
    (other : ∀ path (s : Guarded σ), path ∉ s.chain → (∀ inner, target tree path ≠ .text inner) →
      P path s)
    (path : String) (s : Guarded σ) : P path s := by
  have h : ∀ chain path, ∀ s : Guarded σ, s.chain = chain → P path s := by
    intro chain path
    induction chain, path using Reference.expand_induction tree with
    | known chain path hc =>
      rintro s rfl
      exact known path s hc
    | text chain path inner hc ht ih =>
      rintro s rfl
      exact text path s inner hc ht ih
    | other chain path hc ht =>
      rintro s rfl
      exact other path s hc ht
  exact h s.chain path s rfl

omit [Observer σ] in
/-- `Reference.follow_induction`, with the chain in a state. -/
theorem follow_induction (tree : Tree) {P : String → Guarded σ → Prop}
    (known : ∀ path (s : Guarded σ), path ∈ s.chain → P path s)
    (next : ∀ path (s : Guarded σ) inner next, path ∉ s.chain → target tree path = .text inner →
      single? inner = some next →
        (∀ s' : Guarded σ, s'.chain = s.chain ++ [path] → P next s') → P path s)
    (ends : ∀ path (s : Guarded σ), path ∉ s.chain →
      (∀ inner next, target tree path = .text inner → single? inner ≠ some next) → P path s)
    (path : String) (s : Guarded σ) : P path s := by
  have h : ∀ chain path, ∀ s : Guarded σ, s.chain = chain → P path s := by
    intro chain path
    induction chain, path using Reference.follow_induction tree with
    | known chain path hc =>
      rintro s rfl
      exact known path s hc
    | next chain path inner other hc ht hs ih =>
      rintro s rfl
      exact next path s inner other hc ht hs ih
    | ends chain path hc ht =>
      rintro s rfl
      exact ends path s hc ht
  exact h s.chain path s rfl

end Induction

/-- From a state, a computation does what a trace says: it yields its value, takes its steps in and
leaves the chain as it was. -/
structure Follows {α : Type} (s : Guarded σ) (x : StateM (Guarded σ) α) (t : Traced α) : Prop where
  value : (x s).1 = t.value
  state : (x s).2.state = Observer.after s.state t.steps
  chain : (x s).2.chain = s.chain

namespace Follows

variable {α β : Type} {x : StateM (Guarded σ) α} {t : Traced α}

theorem pure (a : α) : Follows s (Pure.pure a) (Pure.pure a) := ⟨rfl, rfl, rfl⟩

theorem step (e : Step) : Follows s (Tracing.step e) (Tracing.step e) := ⟨rfl, rfl, rfl⟩

theorem bind {f : α → StateM (Guarded σ) β} {g : α → Traced β} (hx : Follows s x t)
    (hf : Follows (x s).2 (f t.value) (g t.value)) : Follows s (x >>= f) (t >>= g) where
  value := by
    rw [Observer.bind_apply, hx.value]
    exact hf.value
  state := by
    rw [Observer.bind_apply, hx.value, hf.state, hx.state]
    simp
  chain := by
    rw [Observer.bind_apply, hx.value, hf.chain]
    exact hx.chain

/-- What every step keeps holds after the computation. -/
theorem holds {I : σ → Prop} (kept : ∀ s t, I s → I (Observer.observe s t))
    (hx : Follows s x t) (hs : I s.state) : I (x s).2.state := by
  rw [hx.state]
  exact Observer.after_of_kept kept hs t.steps

end Follows

section TypedTarget

theorem follows_typedTarget (tree : Tree) (path : String) (s : Guarded σ) :
    Follows s (typedTarget tree path) (Reference.typedTarget tree s.chain path) := by
  induction path, s using follow_induction tree with
  | known path s hc =>
    have he : typedTarget tree path s = _ := typedTarget_of_mem hc
    rw [Reference.typedTarget_of_mem hc]
    exact ⟨congrArg (·.1) he, congrArg (·.2.state) he, congrArg (·.2.chain) he⟩
  | next path s inner next hc ht hn ih =>
    have he : typedTarget tree path s = _ := typedTarget_text hc ht hn
    have inside : Follows (s.push path) (typedTarget tree next)
        (Reference.typedTarget tree (s.chain ++ [path]) next) := ih (s.push path) rfl
    rw [Reference.typedTarget_text hc ht hn]
    refine ⟨?_, ?_, ?_⟩
    · rw [he]
      simp [inside.value]
    · rw [he]
      simp [pop, inside.state]
    · rw [he]
      simp
  | ends path s hc ht =>
    have he : typedTarget tree path s = _ := typedTarget_other hc ht
    rw [Reference.typedTarget_other hc ht]
    exact ⟨congrArg (·.1) he, congrArg (·.2.state) he, congrArg (·.2.chain) he⟩

theorem follows_wholeValue (tree : Tree) (text : String) (s : Guarded σ) :
    Follows s (wholeValue tree text) (Reference.wholeValue tree s.chain text) := by
  rw [wholeValue, Reference.wholeValue]
  cases single? text with
  | none => exact .pure none
  | some path =>
    refine (follows_typedTarget tree path s).bind ?_
    cases (Reference.typedTarget tree s.chain path).value with
    | none => exact .pure none
    | some value => exact (Follows.step _).bind (.pure _)

end TypedTarget

section Trace

variable {trace : String → Traced String}

section Invariant

-- The hook may do what its trace says only in some states, if no step leads out of them.
variable {I : σ → Prop} (kept : ∀ s t, I s → I (Observer.observe s t))
include kept

theorem follows_expandAll {parts : List Part}
    (h : ∀ path ∈ parts.filterMap Part.path?, ∀ s : Guarded σ, s.chain = chain → I s.state →
      Follows s (expandPath tree hook path) (Reference.expandPath tree trace chain path))
    (s : Guarded σ) (hs : s.chain = chain) (hi : I s.state) :
    Follows s (expandAll tree hook parts) (Reference.expandParts tree trace chain parts) := by
  induction parts generalizing s with
  | nil =>
    rw [expandAll_nil, Reference.expandParts]
    exact .pure []
  | cons part parts ih =>
    cases part with
    | char c =>
      rw [expandAll_char, Reference.expandParts]
      exact (ih (fun p hp => h p (by simpa [Part.path?] using hp)) s hs hi).bind (.pure _)
    | placeholder path =>
      have first := h path (by simp [Part.path?]) s hs hi
      have others := ih (fun p hp => h p (by simp [Part.path?, hp])) _ (first.chain.trans hs)
        (first.holds kept hi)
      rw [expandAll_placeholder, Reference.expandParts_placeholder]
      exact first.bind (others.bind (.pure _))

theorem follows_expandText_of_kept {text : String}
    (h : ∀ path ∈ find text, ∀ s : Guarded σ, s.chain = chain → I s.state →
      Follows s (expandPath tree hook path) (Reference.expandPath tree trace chain path))
    (s : Guarded σ) (hs : s.chain = chain) (hi : I s.state) :
    Follows s (expandText tree hook text) (Reference.expandText tree trace chain text) := by
  have parts : Follows s (expandAll tree hook (template text))
      (Reference.expandParts tree trace chain (template text)) := follows_expandAll kept h s hs hi
  exact parts.bind (.pure _)

variable (hh : ∀ text s, I s → hook text s = (trace text).perform s)
include hh

theorem follows_expandPath_of_kept (path : String) (s : Guarded σ) (hi : I s.state) :
    Follows s (expandPath tree hook path) (Reference.expandPath tree trace s.chain path) := by
  induction path, s using expand_induction tree with
  | known path s hc =>
    have he : expandPath tree hook path s = _ := expandPath_of_mem hc
    rw [Reference.expandPath_of_mem trace hc]
    exact ⟨congrArg (·.1) he, congrArg (·.2.state) he, congrArg (·.2.chain) he⟩
  | text path s inner hc ht ih =>
    have entered : I (s.push path).state := kept _ _ hi
    have inside : Follows (s.push path) (expandText tree hook inner)
        (Reference.expandText tree trace (s.chain ++ [path]) inner) := by
      refine follows_expandText_of_kept kept ?_ _ rfl entered
      intro other ho s' hs hi'
      rw [← hs]
      exact ih other ho s' hs hi'
    have handed (t : Step) : I ((expandText tree hook inner (s.push path)).2.observe t).state :=
      kept _ t (inside.holds kept entered)
    have he : expandPath tree hook path s = _ := expandPath_text hc ht
    rw [Observer.bind_apply, inside.value, leave, hh _ _ (handed _)] at he
    rw [Reference.expandPath_text trace hc ht]
    refine ⟨?_, ?_, ?_⟩
    · rw [he]
      rfl
    · rw [he]
      simp [pop, observe, inside.state]
    · rw [he]
      simp [pop, observe]
  | other path s hc ht =>
    have he : expandPath tree hook path s = _ := expandPath_other hc ht
    rw [Reference.expandPath_other trace hc ht]
    cases h : target tree path with
    | text inner => exact absurd h (ht inner)
    | _ =>
      rw [h] at he
      exact ⟨congrArg (·.1) he, congrArg (·.2.state) he, congrArg (·.2.chain) he⟩

theorem follows_resolveValue_of_kept (value : Json) (s : Guarded σ) (hi : I s.state) :
    Follows s (resolveValue tree hook value) (Reference.resolveValue tree trace s.chain value) := by
  cases value with
  | string text =>
    have whole := follows_wholeValue tree text s
    have expanded : Follows (wholeValue tree text s).2 (expandText tree hook text)
        (Reference.expandText tree trace s.chain text) := by
      refine follows_expandText_of_kept kept ?_ _ whole.chain (whole.holds kept hi)
      intro path _ s' hs hi'
      exact hs ▸ follows_expandPath_of_kept kept hh path s' hi'
    refine whole.bind ?_
    cases (Reference.wholeValue tree s.chain text).value with
    | none => exact expanded.bind (.pure _)
    | some value => exact .pure value
  | _ => exact .pure _

end Invariant

theorem follows_expandText {text : String}
    (h : ∀ path ∈ find text, ∀ s : Guarded σ, s.chain = chain →
      Follows s (expandPath tree hook path) (Reference.expandPath tree trace chain path))
    (s : Guarded σ) (hs : s.chain = chain) :
    Follows s (expandText tree hook text) (Reference.expandText tree trace chain text) :=
  follows_expandText_of_kept (I := fun _ => True) (fun _ _ _ => trivial)
    (fun path hp s hs _ => h path hp s hs) s hs trivial

variable (hh : ∀ text, hook text = (trace text).perform)
include hh

/-- Under a guard, a placeholder expands as it does along the chain of the guard. -/
theorem follows_expandPath (path : String) (s : Guarded σ) :
    Follows s (expandPath tree hook path) (Reference.expandPath tree trace s.chain path) :=
  follows_expandPath_of_kept (I := fun _ => True) (fun _ _ _ => trivial)
    (fun text s _ => congrFun (hh text) s) path s trivial

theorem follows_resolveValue (value : Json) (s : Guarded σ) :
    Follows s (resolveValue tree hook value) (Reference.resolveValue tree trace s.chain value) :=
  follows_resolveValue_of_kept (I := fun _ => True) (fun _ _ _ => trivial)
    (fun text s _ => congrFun (hh text) s) value s trivial

end Trace

end DesignTokens.Reference.Guarded
