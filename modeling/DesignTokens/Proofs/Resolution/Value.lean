import DesignTokens.Proofs.Reference.WholeValue
import DesignTokens.Proofs.Resolution.Cycle

/-!
# What a value resolves to

A text that reaches no cycle resolves in two steps: its references are expanded, and the result is
evaluated. A token that is expanded on the way is evaluated by the hook instead, unless it still holds
a placeholder. On a text that holds none, the hook and the last step are the same evaluation.
-/

namespace DesignTokens.Scope

open Reference Text

variable (scope : Scope) {source text : String} {value : Json}

section Evaluate

variable {m : Type → Type} [Monad m] [Tracing m]

/-- Where no placeholder is left, the hook evaluates as the last step does. -/
theorem evaluateExpanded_of_plain (h : occursIn text = false) :
    (scope.evaluateExpanded text : m String) =
      Expression.evaluateText scope.catalog scope.settings [] text := by
  rw [evaluateExpanded, h]
  cases hc : isCall text with
  | false =>
    rw [Expression.evaluateText_of_not_isCall hc]
    rfl
  | true => rfl

theorem evaluateExpanded_of_not_isCall (h : isCall text = false) :
    (scope.evaluateExpanded text : m String) = pure text := by
  rw [evaluateExpanded, h]
  rfl

/-- The hook leaves a placeholder to whoever refers to the token. -/
theorem evaluateExpanded_of_occursIn (h : occursIn text = true) :
    (scope.evaluateExpanded text : m String) = pure text := by
  rw [evaluateExpanded, h]
  simp

theorem evaluateValue_of_typed (h : value.text? = none) :
    (scope.evaluateValue value : m Json) = pure value := by
  cases value with
  | string s => simp [Json.text?] at h
  | _ => rfl

end Evaluate

/-- The hook leaves the text of a typed value alone, with any blanks around it. -/
theorem value_evaluateExpanded_of_padded (hs : value.text? = none) (hn : value ≠ .null)
    (hp : Padded value.render.toList text.toList) :
    (scope.evaluateExpanded text : Traced String).value = text := by
  rw [evaluateExpanded_of_not_isCall scope (Json.isCall_of_padded_render hs hn hp)]
  rfl

/-- An expanded value is the one that the text stands for, or else the expanded text. -/
theorem value_expand (source : String) :
    (scope.expand (.string source)).value =
      match (wholeValue scope.tree [] source).value with
      | some value => value
      | none => .string (expandText scope.tree scope.evaluateExpanded [] source).value := by
  rw [expand, resolveValue, Traced.value_bind]
  cases (wholeValue scope.tree [] source).value <;> rfl

theorem value_expand_of_typed (h : (wholeValue scope.tree [] source).value = some value) :
    (scope.expand (.string source)).value = value := by
  rw [value_expand, h]

theorem value_expand_of_text (h : (wholeValue scope.tree [] source).value = none) :
    (scope.expand (.string source)).value =
      .string (expandText scope.tree scope.evaluateExpanded [] source).value := by
  rw [value_expand, h]

/-- A value that is not a string has nothing to resolve. -/
theorem resolve_of_typed (h : value.text? = none) : scope.resolve value = pure value := by
  cases value with
  | string s => simp [Json.text?] at h
  | _ => rfl

/-- A value that does not resolve to itself is a text. -/
theorem value_resolve_eq_or (value : Json) :
    (scope.resolve value).value = value ∨ ∃ text, value = .string text := by
  cases ht : value.text? with
  | some text => exact .inr ⟨text, Json.eq_string_of_text? ht⟩
  | none =>
    rw [scope.resolve_of_typed ht]
    exact .inl rfl

/-- A text that reaches no cycle is expanded, and then evaluated. -/
theorem resolve_of_not_reachesCycle (h : ¬ ReachesCycle scope.tree source) :
    scope.resolve (.string source) = scope.expand (.string source) >>= scope.evaluateValue := by
  rw [resolve, if_neg (mt scope.raises_expand_iff.1 h)]

/-- A text without placeholders is its own expansion, and this takes no step. -/
theorem expand_of_plain (h : occursIn text = false) :
    scope.expand (.string text) = pure (.string text) := by
  have found := occursIn_eq_false_iff.1 h
  have single : wholeValue scope.tree [] text = pure none := by
    rw [wholeValue, single?_of_not_occursIn h]
  have expanded : expandText scope.tree scope.evaluateExpanded [] text =
      ⟨substitute placeholderText text, []⟩ := by
    have none : ∀ path ∈ find text, expandPath scope.tree scope.evaluateExpanded [] path =
        ⟨placeholderText path, []⟩ := by
      simp [found]
    rw [expandText_eq none, found, List.flatMap_nil]
  rw [substitute_of_not_occursIn h] at expanded
  rw [expand, resolveValue, single, expanded]
  rfl

/-- A text without placeholders is evaluated at once. -/
theorem resolve_of_plain (h : occursIn text = false) :
    scope.resolve (.string text) = scope.evaluateValue (.string text) := by
  rw [resolve, scope.expand_of_plain h]
  rfl

section Resolve

variable (hn : ¬ ReachesCycle scope.tree source)
include hn

theorem value_resolve_of_typed (h : (wholeValue scope.tree [] source).value = some value) :
    (scope.resolve (.string source)).value = value := by
  rw [resolve_of_not_reachesCycle scope hn, Traced.value_bind, value_expand_of_typed scope h,
    evaluateValue_of_typed scope (of_wholeValue h).1]
  rfl

theorem events_resolve_of_typed (h : (wholeValue scope.tree [] source).value = some value) :
    (scope.resolve (.string source)).events = [] := by
  rw [resolve_of_not_reachesCycle scope hn, Traced.events_bind, events_expand, h,
    value_expand_of_typed scope h, evaluateValue_of_typed scope (of_wholeValue h).1]
  rfl

theorem value_resolve_of_text (h : (wholeValue scope.tree [] source).value = none) :
    (scope.resolve (.string source)).value =
      .string (Expression.evaluateText scope.catalog scope.settings []
        (expandText scope.tree scope.evaluateExpanded [] source).value : Traced String).value := by
  rw [resolve_of_not_reachesCycle scope hn, Traced.value_bind, value_expand_of_text scope h]
  rfl

theorem events_resolve_of_text (h : (wholeValue scope.tree [] source).value = none) :
    (scope.resolve (.string source)).events =
      (expandText scope.tree scope.evaluateExpanded [] source).events ++
        (Expression.evaluateText scope.catalog scope.settings []
          (expandText scope.tree scope.evaluateExpanded [] source).value : Traced String).events := by
  rw [resolve_of_not_reachesCycle scope hn, Traced.events_bind, events_expand, h,
    value_expand_of_text scope h]
  simp [evaluateValue]

/-- A text that resolves to a string stands for no value of another type. -/
theorem value_wholeValue_of_string {result : String}
    (hr : (scope.resolve (.string source)).value = .string result) :
    (wholeValue scope.tree [] source).value = none := by
  cases hw : (wholeValue scope.tree [] source).value with
  | none => rfl
  | some value =>
    have typed := (of_wholeValue hw).1
    rw [value_resolve_of_typed scope hn hw] at hr
    simp [hr, Json.text?] at typed

end Resolve

/-- The text of a value holds no placeholder once its references have been expanded. -/
def Plain (scope : Scope) (source : String) : Prop :=
  ∀ text, (scope.expand (.string source)).value = .string text → occursIn text = false

section Substituted

variable {path inner result : String}
variable (ha : Acyclic scope.tree path) (ht : target scope.tree path = .text inner)
variable (hn : ¬ ReachesCycle scope.tree inner)
include ha ht hn

/-- A token that resolves to a string expands to this string. -/
theorem value_expandPath_of_text (hp : scope.Plain inner)
    (hr : (scope.resolve (.string inner)).value = .string result) :
    (expandPath scope.tree scope.evaluateExpanded [] path).value = result := by
  have whole := value_wholeValue_of_string scope hn hr
  have plain := hp _ (value_expand_of_text scope whole)
  rw [value_resolve_of_text scope hn whole] at hr
  rw [value_expandPath_text ha ht, evaluateExpanded_of_plain scope plain]
  exact Json.string.inj hr

/-- A token that resolves to another value expands to the text of this value, up to blanks. -/
theorem padded_expandPath_of_typed (hr : (scope.resolve (.string inner)).value = value)
    (hs : value.text? = none) :
    Padded value.render.toList
      (expandPath scope.tree scope.evaluateExpanded [] path).value.toList := by
  cases hw : (wholeValue scope.tree [] inner).value with
  | some typed =>
    rw [value_resolve_of_typed scope hn hw] at hr
    subst hr
    apply padded_expandPath
    · intro text hp
      exact value_evaluateExpanded_of_padded scope hs (of_wholeValue hw).2 hp
    · rw [value_typedTarget_text ha ht, hw]
  | none =>
    rw [value_resolve_of_text scope hn hw] at hr
    simp [← hr, Json.text?] at hs

/-- What a token expands to writes what it resolves to. -/
theorem writtenAs_expandPath (hp : scope.Plain inner) :
    (scope.resolve (.string inner)).value.WrittenAs
      (expandPath scope.tree scope.evaluateExpanded [] path).value := by
  cases hr : (scope.resolve (.string inner)).value with
  | string result => exact value_expandPath_of_text scope ha ht hn hp hr
  | _ => exact padded_expandPath_of_typed scope ha ht hn hr rfl

end Substituted

end DesignTokens.Scope
