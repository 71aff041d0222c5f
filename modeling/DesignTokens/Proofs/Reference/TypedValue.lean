import DesignTokens.Diagnostic.Recorder
import DesignTokens.Proofs.Reference.Guard
import DesignTokens.Proofs.Reference.WholeValue
import Mathlib.Data.List.Nodup

/-!
# Two ways to resolve a whole-value reference

A text that is one placeholder is resolved in two ways: by following placeholders from token to token
until one has a value of another type, and by expanding it as any text. `Leads` says without a chain
where the following comes to.

The value is found exactly if this walk ends at a value and repeats no path. Then expanding the text
meets the same tokens, raises nothing, and ends with the JSON text of the value.
-/

namespace DesignTokens.Reference

open Text

variable {tree : Tree} {chain paths : List String} {path text : String} {value : Json}

/-- A text is the placeholder of a path and nothing else, blanks around it apart. -/
structure IsPlaceholder (path text : String) : Prop where
  isPath : isPath path.toList = true
  padded : Padded (placeholderText path).toList text.toList

theorem single?_eq_some_iff : single? text = some path ↔ IsPlaceholder path text := by
  constructor
  · intro h
    have mem : .placeholder path ∈ template text :=
      mem_filterMap_path?.1 (find_eq text ▸ mem_find_of_single? h)
    have padded := padded_substitute_of_single? h placeholderText
    rw [substitute_self] at padded
    exact ⟨(eq_of_placeholder_mem_scan mem).1, padded⟩
  · rintro ⟨hp, padded⟩
    have same : trim text.toList = trim (placeholderText path).toList := trim_eq_of_padded padded
    rw [single?, same]
    exact single?_placeholderText hp

/-- Whole-value references lead from a text through the tokens at some paths to a value: the text is the
placeholder of the first path, every token but the last has a string value that is the placeholder of
the next path, and the last one has the value, which is neither a string nor null. -/
inductive Leads (tree : Tree) : (text : String) → (paths : List String) → (value : Json) → Prop where
  | ends {text path : String} {t : Token} (whole : IsPlaceholder path text)
      (found : tree.token? path = some t) (typed : t.value.text? = none) (filled : t.value ≠ .null) :
      Leads tree text [path] t.value
  | next {text path inner : String} {paths : List String} {value : Json}
      (whole : IsPlaceholder path text) (found : TextAt tree path inner)
      (rest : Leads tree inner paths value) : Leads tree text (path :: paths) value

section Walk

theorem leads_of_typed (whole : IsPlaceholder path text) (h : target tree path = .typed value) :
    Leads tree text [path] value := by
  obtain ⟨typed, filled⟩ := of_target_typed h
  unfold target at h
  split at h
  · rename_i t ht
    have found : tree.token? path = some t := by
      rw [Tree.token?, ht]
      rfl
    obtain rfl : t.value = value := by
      split at h
      · simp at h
      · simp at h
      · exact Target.typed.inj h
    exact .ends whole found typed filled
  · simp at h
  · simp at h

/-- The first path of a walk is the one that its text is a placeholder of. -/
theorem Leads.path_mem (h : Leads tree text paths value) (hs : single? text = some path) :
    path ∈ paths := by
  cases h with
  | ends whole =>
    obtain rfl := Option.some.inj (hs.symm.trans (single?_eq_some_iff.2 whole))
    exact List.mem_singleton_self path
  | next whole =>
    obtain rfl := Option.some.inj (hs.symm.trans (single?_eq_some_iff.2 whole))
    exact List.mem_cons_self

/-- A walk that clears a chain: it repeats no path and meets none of the chain. -/
def LeadsClear (tree : Tree) (chain : List String) (text : String) (value : Json) : Prop :=
  ∃ paths, Leads tree text paths value ∧ paths.Nodup ∧ ∀ path ∈ paths, path ∉ chain

/-- A walk that goes on from a string token goes on with this token on the chain. -/
theorem leadsClear_text {inner : String} (hs : single? text = some path) (hc : path ∉ chain)
    (ht : target tree path = .text inner) :
    LeadsClear tree chain text value ↔ LeadsClear tree (chain ++ [path]) inner value := by
  constructor
  · rintro ⟨paths, leads, nodup, clear⟩
    cases leads with
    | @ends _ other t whole found typed filled =>
      obtain rfl := Option.some.inj (hs.symm.trans (single?_eq_some_iff.2 whole))
      simp [target_of_typed found typed filled] at ht
    | @next _ other inner' paths _ whole found rest =>
      obtain rfl := Option.some.inj (hs.symm.trans (single?_eq_some_iff.2 whole))
      obtain rfl : inner = inner' := by simpa [ht] using textAt_iff.1 found
      obtain ⟨fresh, nodup⟩ := List.nodup_cons.1 nodup
      refine ⟨paths, rest, nodup, fun p hp => ?_⟩
      have out : p ∉ chain := clear p (List.mem_cons_of_mem _ hp)
      have other : p ≠ path := by
        rintro rfl
        exact fresh hp
      simp [out, other]
  · rintro ⟨paths, leads, nodup, clear⟩
    refine ⟨path :: paths, .next (single?_eq_some_iff.1 hs) (textAt_iff.2 ht) leads, ?_, ?_⟩
    · refine List.nodup_cons.2 ⟨fun hp => ?_, nodup⟩
      simpa using clear path hp
    · intro p hp
      rcases List.mem_cons.1 hp with rfl | hp
      · exact hc
      · exact fun hm => clear p hp (List.mem_append_left _ hm)

/-- Following whole-value references along a chain finds what the walks that clear the chain come to. -/
theorem value_typedTarget_iff (hs : single? text = some path) :
    (typedTarget tree chain path).value = some value ↔ LeadsClear tree chain text value := by
  induction chain, path using follow_induction tree generalizing text with
  | known chain path hc =>
    rw [typedTarget_of_mem hc]
    refine iff_of_false (by simp) ?_
    rintro ⟨paths, leads, -, clear⟩
    exact clear path (leads.path_mem hs) hc
  | next chain path inner next hc ht hn ih =>
    rw [typedTarget_text hc ht hn, leadsClear_text hs hc ht]
    exact ih hn
  | ends chain path hc ht =>
    rw [typedTarget_other hc ht]
    constructor
    · intro found
      cases hv : target tree path with
      | typed value' =>
        obtain rfl : value' = value := by simpa [hv] using found
        exact ⟨[path], leads_of_typed (single?_eq_some_iff.1 hs) hv, by simp, by simpa using hc⟩
      | _ => simp [hv] at found
    · rintro ⟨paths, leads, -, -⟩
      cases leads with
      | @ends _ other t whole found typed filled =>
        obtain rfl := Option.some.inj (hs.symm.trans (single?_eq_some_iff.2 whole))
        simp [target_of_typed found typed filled]
      | @next _ other inner paths _ whole found rest =>
        obtain rfl := Option.some.inj (hs.symm.trans (single?_eq_some_iff.2 whole))
        cases rest with
        | ends whole' => exact absurd (single?_eq_some_iff.2 whole') (ht inner _ (textAt_iff.1 found))
        | next whole' => exact absurd (single?_eq_some_iff.2 whole') (ht inner _ (textAt_iff.1 found))

/-- A text stands for the values that the walks from it come to. -/
theorem value_wholeValue_iff :
    (wholeValue tree chain text).value = some value ↔ LeadsClear tree chain text value := by
  rw [value_wholeValue]
  cases hs : single? text with
  | some path => exact value_typedTarget_iff hs
  | none =>
    refine iff_of_false (by simp) ?_
    rintro ⟨paths, leads, -, -⟩
    cases leads with
    | ends whole => simp [single?_eq_some_iff.2 whole] at hs
    | next whole => simp [single?_eq_some_iff.2 whole] at hs

end Walk

section Expand

/-- Expanding the placeholder of a path that stands for a value raises no diagnostic. -/
theorem events_expandPath (h : (typedTarget tree chain path).value = some value) :
    (expandPath tree (fun text => pure text) chain path).events = [] := by
  induction h using typed_induction with
  | ends chain path _ hc ht =>
    rw [expandPath_other _ hc (by simp [ht]), ht]
    rfl
  | next chain path inner next _ _ hc ht hs ih =>
    have inside : (expandText tree (fun text => pure text) (chain ++ [path]) inner).events = [] := by
      rw [Traced.events, steps_expandText, find_eq_of_single? hs, List.flatMap_singleton]
      exact ih
    rw [expandPath_text _ hc ht]
    simp [inside, Step.raised?]

/-- A text that stands for a value expands to the text of the value, up to blanks, and raises nothing. -/
theorem expandText_of_wholeValue (h : (wholeValue tree chain text).value = some value) :
    Padded value.render.toList (expandText tree (fun text => pure text) chain text).value.toList ∧
      (expandText tree (fun text => pure text) chain text).events = [] := by
  rw [value_wholeValue] at h
  obtain ⟨path, hs, hv⟩ := Option.bind_eq_some_iff.1 h
  constructor
  · rw [value_expandText]
    exact (padded_expandPath _ (fun _ _ => rfl) hv).trans (padded_substitute_of_single? hs _)
  · rw [Traced.events, steps_expandText, find_eq_of_single? hs, List.flatMap_singleton]
    exact events_expandPath hv

theorem value_resolveValue_string (hook : String → Traced String) :
    (resolveValue tree hook chain (.string text)).value =
      ((wholeValue tree chain text).value).getD
        (.string (expandText tree hook chain text).value) := by
  rw [resolveValue]
  cases h : (wholeValue tree chain text).value <;> simp [h]

/-- A text is resolved to a value of another type exactly if it stands for this value. -/
theorem value_resolveValue_eq_iff (hook : String → Traced String) (typed : value.text? = none) :
    (resolveValue tree hook chain (.string text)).value = value ↔
      (wholeValue tree chain text).value = some value := by
  rw [value_resolveValue_string]
  cases h : (wholeValue tree chain text).value with
  | some found => simp
  | none =>
    refine iff_of_false ?_ (by simp)
    rintro rfl
    simp [Json.text?] at typed

end Expand

namespace Guarded

/-- Resolving a text as a value and expanding it as a text agree, in every tree, for every text and from
an empty chain. When the value is no string, expanding the text raises no diagnostic and gives the JSON
text of the value with nothing but blanks around it. And the value is one that is no string exactly if
whole-value references lead from the text to it and repeat no path on the way. -/
theorem typed_agrees_with_text {σ : Type} [Observer σ] (tree : Tree) (text : String) (state : σ) :
    let resolved := resolveValue tree (fun text => pure text) (.string text) (start [] state)
    let expanded := expandText tree (fun text => pure text) text (start [] state)
    (resolved.1.text? = none →
        Padded resolved.1.render.toList expanded.1.toList ∧
          ∃ steps, expanded.2.state = Observer.after state steps ∧
            steps.filterMap Step.raised? = []) ∧
      ∀ value, value.text? = none →
        (resolved.1 = value ↔ ∃ paths, Leads tree text paths value ∧ paths.Nodup) := by
  intro resolved expanded
  let unchanged (text : String) : Traced String := pure text
  have lifted : ∀ text, (pure text : StateM σ String) = (unchanged text).perform :=
    fun _ => rfl
  have value : resolved.1 = (Reference.resolveValue tree unchanged [] (.string text)).value :=
    (follows_resolveValue lifted (.string text) (start [] state)).value
  have follows : Follows (start [] state) (expandText tree (fun text => pure text) text)
      (Reference.expandText tree unchanged [] text) := by
    apply follows_expandText _ _ rfl
    intro path _ s hs
    rw [← hs]
    exact follows_expandPath lifted path s
  constructor
  · intro typed
    have whole := (value_resolveValue_eq_iff unchanged typed).1 value.symm
    obtain ⟨padded, silent⟩ := expandText_of_wholeValue whole
    rw [← follows.value] at padded
    exact ⟨padded, _, follows.state, silent⟩
  · intro other typed
    rw [value, value_resolveValue_eq_iff unchanged typed, value_wholeValue_iff, LeadsClear]
    simp

/-- A tree in which `gap` stands for the number at `base`, with blanks around the reference. -/
def gapTree : Tree :=
  ⟨[("base", .token (.of (.number (.integer 16)))),
    ("gap", .token (.of (.string " \x7bbase\x7d ")))]⟩

theorem typed_agrees_with_text_gap :
    (resolveValue gapTree (fun text => pure text) (.string "\x7bgap\x7d")
      (start [] (Recorder.start none))).1 = .number (.integer 16) ∧
    Padded "16".toList (expandText gapTree (fun text => pure text) "\x7bgap\x7d"
      (start [] (Recorder.start none))).1.toList := by
  have gap : TextAt gapTree "gap" " \x7bbase\x7d " := ⟨_, rfl, rfl⟩
  have base : gapTree.token? "base" = some (.of (.number (.integer 16))) := rfl
  have leads : Leads gapTree "\x7bgap\x7d" ["gap", "base"] (.number (.integer 16)) :=
    .next (single?_eq_some_iff.1 (by decide +kernel)) gap
      (.ends (single?_eq_some_iff.1 (by decide +kernel)) base rfl (by simp [Token.of]))
  obtain ⟨agree, exact_⟩ := typed_agrees_with_text gapTree "\x7bgap\x7d" (Recorder.start none)
  have typed := (exact_ (.number (.integer 16)) rfl).2 ⟨_, leads, by decide⟩
  refine ⟨typed, ?_⟩
  have padded := (agree (by rw [typed]; rfl)).1
  rw [typed] at padded
  exact padded

end Guarded

end DesignTokens.Reference
