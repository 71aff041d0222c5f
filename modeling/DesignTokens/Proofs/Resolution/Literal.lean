import DesignTokens.Proofs.Resolution.Value

/-!
# Literal texts

A text with no placeholder in it that is no call is final: it expands to itself, whatever the tree, and
it resolves to itself. A token with such a text is where references end, and its alias resolves to the
text, too.

The palette at the end is a small tree to try resolution on.
-/

namespace DesignTokens.Scope

open Reference

/-- A text with nothing in it to expand or to evaluate. -/
structure Literal (text : String) : Prop where
  plain : occursIn text = false
  notCall : isCall text = false

namespace Literal

variable {scope : Scope} {tree : Tree} {text path : String}

section Text

variable (hl : Literal text)
include hl

theorem not_reachesCycle : ¬ ReachesCycle tree text := by
  apply Reference.not_reachesCycle
  simp [occursIn_eq_false_iff.1 hl.plain]

theorem value_wholeValue {chain : List String} : (wholeValue tree chain text).value = none := by
  rw [Reference.value_wholeValue, single?_of_not_occursIn hl.plain, Option.bind_none]

/-- A literal text expands to itself. -/
theorem value_expandText {hook : String → Traced String} {chain : List String} :
    (expandText tree hook chain text).value = text := by
  rw [Reference.value_expandText, substitute_of_not_occursIn hl.plain]

/-- A literal text resolves to itself, whatever the tree. -/
theorem value_resolve : (scope.resolve (.string text)).value = .string text := by
  rw [value_resolve_of_text scope hl.not_reachesCycle hl.value_wholeValue, hl.value_expandText,
    Expression.evaluateText_of_not_isCall hl.notCall, Traced.value_pure]

/-- References end at a literal text. -/
theorem acyclic (ht : target tree path = .text text) : Acyclic tree path := by
  apply Acyclic.of_text ht
  simp [occursIn_eq_false_iff.1 hl.plain]

theorem value_expandPath (ht : target scope.tree path = .text text) :
    (expandPath scope.tree scope.evaluateExpanded [] path).value = text := by
  rw [value_expandPath_text (hl.acyclic ht) ht, hl.value_expandText,
    evaluateExpanded_of_not_isCall scope hl.notCall, Traced.value_pure]

end Text

section Alias

variable (hl : Literal text) (hp : isPath path.toList)
include hl hp

theorem value_wholeValue_placeholderText (ht : target tree path = .text text) :
    (wholeValue tree [] (placeholderText path)).value = none := by
  rw [Reference.value_wholeValue, single?_placeholderText hp, Option.bind_some,
    value_typedTarget_text (hl.acyclic ht) ht, hl.value_wholeValue]

/-- An alias of a literal text resolves to the text. -/
theorem value_resolve_placeholderText (ht : target scope.tree path = .text text) :
    (scope.resolve (.string (placeholderText path))).value = .string text := by
  rw [value_resolve_of_text scope (not_reachesCycle_placeholderText hp (hl.acyclic ht))
      (hl.value_wholeValue_placeholderText hp ht),
    expandText_placeholderText _ hp, hl.value_expandPath ht,
    Expression.evaluateText_of_not_isCall hl.notCall, Traced.value_pure]

end Alias

end Literal

section Palette

/-- A function that answers with a call of itself: with its arguments, and with them once more. -/
def doubling : FunctionBody := fun args _ =>
  .ok (Call.signature ⟨"twice", args.texts ++ args.texts⟩)

/-- The text of a token that calls the function with an alias. -/
def toneText : String := "twice(" ++ placeholderText "accent" ++ ")"

/-- Tokens for a color, an alias of it and a call with the alias; the function is in the catalog. -/
def palette : Scope where
  catalog := Catalog.empty.insert ⟨"twice", .custom, "twice(text)", "A call of itself"⟩ doubling
  settings := .builtin
  tree := ⟨[("accent", .token (.of (.string (placeholderText "base")))),
    ("base", .token (.of (.string "red"))),
    ("tone", .token (.of (.string toneText)))]⟩

theorem target_palette_base : target palette.tree "base" = .text "red" := rfl

theorem target_palette_accent :
    target palette.tree "accent" = .text (placeholderText "base") := rfl

theorem target_palette_tone : target palette.tree "tone" = .text toneText := rfl

theorem find_toneText : find toneText = ["accent"] :=
  find_around (by decide) (by decide) (by decide)

theorem literal_red : Literal "red" where
  plain := occursIn_eq_false_iff.2 (find_of_notMem (by decide))
  notCall := by decide

theorem acyclic_palette_accent : Acyclic palette.tree "accent" := by
  apply Acyclic.of_text target_palette_accent
  rw [find_placeholderText (by decide)]
  simpa using literal_red.acyclic target_palette_base

theorem acyclic_palette_tone : Acyclic palette.tree "tone" := by
  apply Acyclic.of_text target_palette_tone
  rw [find_toneText]
  simpa using acyclic_palette_accent

theorem not_reachesCycle_toneText : ¬ ReachesCycle palette.tree toneText := by
  apply not_reachesCycle
  rw [find_toneText]
  simpa using acyclic_palette_accent

theorem value_expandPath_accent :
    (expandPath palette.tree palette.evaluateExpanded [] "accent").value = "red" := by
  rw [value_expandPath_text acyclic_palette_accent target_palette_accent, value_expandText,
    substitute_placeholderText (by decide), literal_red.value_expandPath target_palette_base,
    evaluateExpanded_of_not_isCall palette literal_red.notCall, Traced.value_pure]

theorem value_resolve_accent :
    (palette.resolve (.string (placeholderText "base"))).value = .string "red" :=
  literal_red.value_resolve_placeholderText (by decide) target_palette_base

theorem wholeValue_toneText : (wholeValue palette.tree [] toneText).value = none := by
  rw [value_wholeValue]
  cases hs : single? toneText with
  | none => rfl
  | some path =>
    obtain rfl : path = "accent" := by simpa [find_toneText] using (find_eq_of_single? hs).symm
    rw [Option.bind_some, value_typedTarget_text acyclic_palette_accent target_palette_accent,
      literal_red.value_wholeValue_placeholderText (by decide) target_palette_base]

theorem value_expandText_tone :
    (expandText palette.tree palette.evaluateExpanded [] toneText).value = "twice(red)" := by
  rw [value_expandText, toneText, substitute_around (by decide) (by decide) (by decide),
    value_expandPath_accent]
  rfl

theorem plain_toneText : palette.Plain toneText := by
  intro text he
  rw [value_expand_of_text palette wholeValue_toneText, value_expandText_tone] at he
  obtain rfl : "twice(red)" = text := by simpa using he
  rw [occursIn_eq_false_iff, find_of_notMem (by decide)]

theorem evaluateText_twice_red :
    (Expression.evaluateText palette.catalog palette.settings [] "twice(red)" : Traced String) =
      ⟨"twice(red, red)", [.applied "twice" ["red"],
        .noted (Expression.answeredEvent "twice(red)" "twice(red, red)")]⟩ := by
  have parsed : Call.parse? "twice(red)" = some ⟨"twice", ["red"]⟩ := rfl
  rw [Expression.evaluateText_of_parse? parsed (by decide)]
  rfl

theorem value_resolve_tone :
    (palette.resolve (.string toneText)).value = .string "twice(red, red)" := by
  rw [value_resolve_of_text palette not_reachesCycle_toneText wholeValue_toneText,
    value_expandText_tone, evaluateText_twice_red]

end Palette

end DesignTokens.Scope
