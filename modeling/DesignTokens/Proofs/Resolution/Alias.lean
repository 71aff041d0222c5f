import DesignTokens.Proofs.Resolution.Literal
import Mathlib.Data.Set.Basic

/-!
# Aliases

An alias is a value that is the placeholder of a token and nothing else. It resolves as the value of
the token does, up to one point: the hook has evaluated the text of the token already when the last
step evaluates the alias, so a result that is a call is evaluated a second time. A value stands if a
second evaluation makes no difference to it, and aliases are transparent exactly for these values.
-/

namespace DesignTokens

open Reference

/-- The warnings of a trace, told apart by code, message and context. -/
def Traced.warnings {α : Type} (x : Traced α) : Set (Code × String × KeyedList String) :=
  {w | ∃ e ∈ x.events, e.isWarning ∧ (e.code, e.message, e.context) = w}

namespace Traced

variable {α β γ : Type} {x : Traced α} {y : Traced β} {z : Traced γ}

theorem warnings_congr (h : x.events = y.events) : x.warnings = y.warnings := by
  rw [warnings, warnings, h]

theorem warnings_of_append (h : z.events = x.events ++ y.events) :
    z.warnings = x.warnings ∪ y.warnings := by
  ext w
  simp only [warnings, h, List.mem_append, Set.mem_ofPred_eq, Set.mem_union, or_and_right,
    exists_or]

end Traced

namespace Scope

variable (scope : Scope) {source path inner text : String}

/-- A second evaluation makes no difference to a value: unless placeholders are left in it, the text
that it resolves to evaluates to itself, and raises no warning but those raised before. -/
def Stands (scope : Scope) (source : String) : Prop :=
  scope.Plain source → ∀ once, (scope.resolve (.string source)).value = .string once →
    let again : Traced String := Expression.evaluateText scope.catalog scope.settings [] once
    again.value = once ∧ again.warnings ⊆ (scope.resolve (.string source)).warnings

/-- A result that is no call stands. -/
theorem Stands.of_not_isCall
    (h : ∀ once, (scope.resolve (.string source)).value = .string once → isCall once = false) :
    scope.Stands source := by
  intro _ once hr
  rw [Expression.evaluateText_of_not_isCall (h once hr)]
  refine ⟨rfl, ?_⟩
  rintro w ⟨e, he, -⟩
  simp at he

section Token

variable (hp : isPath path.toList) (ha : Acyclic scope.tree path)
variable (ht : target scope.tree path = .text inner)
include hp ha ht

theorem value_wholeValue_alias :
    (wholeValue scope.tree [] (placeholderText path)).value =
      (wholeValue scope.tree [] inner).value := by
  rw [value_wholeValue, single?_placeholderText hp, Option.bind_some,
    value_typedTarget_text ha ht]

theorem events_expandText_alias :
    (expandText scope.tree scope.evaluateExpanded [] (placeholderText path)).events =
      (expandText scope.tree scope.evaluateExpanded [] inner).events ++
        (scope.evaluateExpanded
          (expandText scope.tree scope.evaluateExpanded [] inner).value : Traced String).events := by
  rw [expandText_placeholderText _ hp, events_expandPath_text (by simp) ht, List.nil_append,
    expandText_eq_of_acyclic ha ht]

theorem value_expandText_alias :
    (expandText scope.tree scope.evaluateExpanded [] (placeholderText path)).value =
      (scope.evaluateExpanded
        (expandText scope.tree scope.evaluateExpanded [] inner).value : Traced String).value := by
  rw [expandText_placeholderText _ hp, value_expandPath_text ha ht]

/-- An alias of a typed value is that value, and nothing is raised. -/
theorem resolve_alias_of_typed {value : Json}
    (hw : (wholeValue scope.tree [] inner).value = some value) :
    (scope.resolve (.string (placeholderText path))).value =
        (scope.resolve (.string inner)).value ∧
      (scope.resolve (.string (placeholderText path))).events =
        (scope.resolve (.string inner)).events := by
  have whole := (value_wholeValue_alias scope hp ha ht).trans hw
  have acyclic := not_reachesCycle_of_acyclic ha ht
  have clear := not_reachesCycle_placeholderText hp ha
  constructor
  · rw [value_resolve_of_typed scope clear whole, value_resolve_of_typed scope acyclic hw]
  · rw [events_resolve_of_typed scope clear whole, events_resolve_of_typed scope acyclic hw]

/-- The hook leaves a text with placeholders to the last step, so an alias of it is evaluated once. -/
theorem resolve_alias_of_occursIn (hw : (wholeValue scope.tree [] inner).value = none)
    (ho : occursIn (expandText scope.tree scope.evaluateExpanded [] inner).value = true) :
    (scope.resolve (.string (placeholderText path))).value =
        (scope.resolve (.string inner)).value ∧
      (scope.resolve (.string (placeholderText path))).events =
        (scope.resolve (.string inner)).events := by
  have whole := (value_wholeValue_alias scope hp ha ht).trans hw
  have acyclic := not_reachesCycle_of_acyclic ha ht
  have clear := not_reachesCycle_placeholderText hp ha
  have kept : (scope.evaluateExpanded
      (expandText scope.tree scope.evaluateExpanded [] inner).value : Traced String) = pure _ :=
    scope.evaluateExpanded_of_occursIn ho
  constructor
  · rw [value_resolve_of_text scope clear whole, value_resolve_of_text scope acyclic hw,
      value_expandText_alias scope hp ha ht, kept, Traced.value_pure]
  · rw [events_resolve_of_text scope clear whole, events_resolve_of_text scope acyclic hw,
      events_expandText_alias scope hp ha ht, value_expandText_alias scope hp ha ht, kept,
      Traced.value_pure, Traced.events_pure, List.append_nil]

/-- An alias of a text without placeholders is evaluated once more than the text. -/
theorem resolve_alias_of_plain {once : String}
    (hw : (wholeValue scope.tree [] inner).value = none) (hplain : scope.Plain inner)
    (hr : (scope.resolve (.string inner)).value = .string once) :
    let again : Traced String := Expression.evaluateText scope.catalog scope.settings [] once
    (scope.resolve (.string (placeholderText path))).value = .string again.value ∧
      (scope.resolve (.string (placeholderText path))).events =
        (scope.resolve (.string inner)).events ++ again.events := by
  intro again
  have whole := (value_wholeValue_alias scope hp ha ht).trans hw
  have acyclic := not_reachesCycle_of_acyclic ha ht
  have clear := not_reachesCycle_placeholderText hp ha
  have evaluated := scope.evaluateExpanded_of_plain (m := Traced)
    (hplain _ (value_expand_of_text scope hw))
  obtain rfl := Json.string.inj ((value_resolve_of_text scope acyclic hw).symm.trans hr)
  constructor
  · rw [value_resolve_of_text scope clear whole, value_expandText_alias scope hp ha ht, evaluated]
  · rw [events_resolve_of_text scope clear whole, events_resolve_of_text scope acyclic hw,
      events_expandText_alias scope hp ha ht, value_expandText_alias scope hp ha ht, evaluated]

/-- An alias of a string token resolves as the text of the token does if and only if the text stands. -/
theorem alias_iff_stands :
    ((scope.resolve (.string (placeholderText path))).value =
          (scope.resolve (.string inner)).value ∧
        (scope.resolve (.string (placeholderText path))).warnings =
          (scope.resolve (.string inner)).warnings) ↔ scope.Stands inner := by
  have acyclic := not_reachesCycle_of_acyclic ha ht
  cases hw : (wholeValue scope.tree [] inner).value with
  | some value =>
    obtain ⟨same, raised⟩ := resolve_alias_of_typed scope hp ha ht hw
    constructor
    · intro _ _ once hr
      simp [value_wholeValue_of_string scope acyclic hr] at hw
    · intro _
      exact ⟨same, Traced.warnings_congr raised⟩
  | none =>
    have expanded := value_expand_of_text scope hw
    cases ho : occursIn (expandText scope.tree scope.evaluateExpanded [] inner).value with
    | true =>
      obtain ⟨same, raised⟩ := resolve_alias_of_occursIn scope hp ha ht hw ho
      constructor
      · intro _ plain
        simp [plain _ expanded] at ho
      · intro _
        exact ⟨same, Traced.warnings_congr raised⟩
    | false =>
      have plain : scope.Plain inner := by
        intro text he
        obtain rfl := Json.string.inj (expanded.symm.trans he)
        exact ho
      have own := value_resolve_of_text scope acyclic hw
      obtain ⟨value, events⟩ := resolve_alias_of_plain scope hp ha ht hw plain own
      rw [value, own, Traced.warnings_of_append events, Set.union_eq_left]
      constructor
      · rintro ⟨final, quiet⟩ _ once hr
        obtain rfl := Json.string.inj (own.symm.trans hr)
        exact ⟨Json.string.inj final, quiet⟩
      · intro stands
        obtain ⟨final, quiet⟩ := stands plain _ own
        exact ⟨congrArg Json.string final, quiet⟩

end Token

/-- Aliases are transparent exactly for the values that stand. Let the token at a path have a value
that is not null, and let no cycle be reached from it. Then its alias resolves to the value that the
value of the token resolves to, on all recorders, and raises the same set of warnings, if and only if
the value of the token is not a string or a second evaluation makes no difference to it. -/
theorem alias_transparent_iff {t : Token} (hp : isPath path.toList)
    (ht : scope.tree.token? path = some t) (hv : t.value ≠ .null)
    (hn : ¬ ReachesCycle scope.tree (placeholderText path)) :
    ((∀ r r' : Recorder, (scope.process (.string (placeholderText path)) r).1 =
          (scope.process t.value r').1) ∧
        (scope.resolve (.string (placeholderText path))).warnings =
          (scope.resolve t.value).warnings) ↔
      ∀ source, t.value = .string source → scope.Stands source := by
  have recorders : Nonempty Recorder := ⟨.start none⟩
  simp only [value_process, forall_const]
  cases hs : t.value.text? with
  | none =>
    -- the alias takes the value of the token, and nothing is raised
    have typed : (wholeValue scope.tree [] (placeholderText path)).value = some t.value := by
      have leads := target_of_typed ht hs hv
      rw [value_wholeValue, single?_placeholderText hp, Option.bind_some,
        typedTarget_other (by simp) (by simp [leads]), leads]
      rfl
    have own : scope.resolve t.value = pure t.value := scope.resolve_of_typed hs
    constructor
    · intro _ source he
      simp [he, Json.text?] at hs
    · intro _
      refine ⟨?_, ?_⟩
      · rw [value_resolve_of_typed scope hn typed, own, Traced.value_pure]
      · apply Traced.warnings_congr
        rw [events_resolve_of_typed scope hn typed, own, Traced.events_pure]
  | some inner =>
    have hv : t.value = .string inner := Json.eq_string_of_text? hs
    have leads : target scope.tree path = .text inner := textAt_iff.1 ⟨t, ht, hv⟩
    have acyclic : Acyclic scope.tree path :=
      acyclic_of_not_reachesCycle hn (by simp [find_placeholderText hp])
    rw [hv, alias_iff_stands scope hp acyclic leads]
    simp

section Palette

/-- The text of the alias in the palette stands, so an alias of this alias is transparent. -/
theorem alias_transparent_iff_accent :
    isPath "accent".toList ∧
      palette.tree.token? "accent" = some (.of (.string (placeholderText "base"))) ∧
      ¬ ReachesCycle palette.tree (placeholderText "accent") ∧
      palette.Stands (placeholderText "base") ∧
      (∀ r r' : Recorder, (palette.process (.string (placeholderText "accent")) r).1 =
        (palette.process (.string (placeholderText "base")) r').1) ∧
      (palette.resolve (.string (placeholderText "accent"))).warnings =
        (palette.resolve (.string (placeholderText "base"))).warnings := by
  have clear : ¬ ReachesCycle palette.tree (placeholderText "accent") :=
    not_reachesCycle_placeholderText (by decide) acyclic_palette_accent
  have stands : palette.Stands (placeholderText "base") := by
    apply Stands.of_not_isCall
    intro once hr
    obtain rfl : "red" = once := by simpa [value_resolve_accent] using hr
    decide
  have token : palette.tree.token? "accent" = some (.of (.string (placeholderText "base"))) := rfl
  refine ⟨by decide, token, clear, stands, ?_⟩
  apply (alias_transparent_iff palette (by decide) token (by simp [Token.of]) clear).2
  intro source hs
  obtain rfl : placeholderText "base" = source := by simpa [Token.of] using hs
  exact stands

/-- The alias of the call in the palette is another call than the one that the call resolves to. -/
theorem alias_of_tone_differs :
    isPath "tone".toList ∧ palette.tree.token? "tone" = some (.of (.string toneText)) ∧
      ¬ ReachesCycle palette.tree (placeholderText "tone") ∧
      (∀ r : Recorder,
        (palette.process (.string toneText) r).1 = .string "twice(red, red)") ∧
      ∀ r : Recorder, (palette.process (.string (placeholderText "tone")) r).1 =
        .string "twice(red, red, red, red)" := by
  have parsed : Call.parse? "twice(red, red)" = some ⟨"twice", ["red", "red"]⟩ := rfl
  have clear : ¬ ReachesCycle palette.tree (placeholderText "tone") :=
    not_reachesCycle_placeholderText (by decide) acyclic_palette_tone
  refine ⟨by decide, rfl, clear, ?_, ?_⟩
  · intro r
    rw [value_process, value_resolve_tone]
  · intro r
    obtain ⟨value, -⟩ := resolve_alias_of_plain palette (by decide) acyclic_palette_tone
      target_palette_tone wholeValue_toneText plain_toneText value_resolve_tone
    rw [value_process, value, Expression.evaluateText_of_parse? parsed (by decide)]
    rfl

end Palette

end Scope

end DesignTokens
