import DesignTokens.Proofs.Resolution.SinglePass

/-!
# The diagnostics of a value

Resolving a value does not know which token the value belongs to: it enters and leaves none, and the
diagnostics that it raises have no path. The code of a diagnostic decides about its level. All are
warnings, but for the note about a call that is left for the browser.
-/

namespace DesignTokens

/-- A diagnostic about a value, whatever token has it. -/
structure Event.OfValue (e : Event) : Prop where
  path : e.path = none
  level : e.isWarning = (e.code != .cssPassthrough)

/-- A step of resolving a value, whatever token has it. -/
def Step.OfValue : Step → Prop
  | .entered _ => False
  | .left => False
  | .raised e => e.OfValue
  | _ => True

theorem Reference.Concerns.ofValue {path : String} {step : Step}
    (h : Reference.Concerns path step) : step.OfValue := by
  cases h with
  | opened => trivial
  | closed => trivial
  | cycle chain => exact ⟨rfl, rfl⟩
  | null => exact ⟨rfl, rfl⟩
  | group => exact ⟨rfl, rfl⟩
  | missing => exact ⟨rfl, rfl⟩

namespace Expression

variable {catalog : Catalog} {settings : Settings} {source text result : String} {call : Call}

theorem Outcome.ofValue {steps : List Step}
    (h : Outcome catalog settings source call result steps) : ∀ step ∈ steps, step.OfValue := by
  have unknown : (unknownEvent source call.name).OfValue := ⟨rfl, rfl⟩
  have failed (error : FunctionError) : (failedEvent source call.name error).OfValue := ⟨rfl, rfl⟩
  have passed : (passthroughEvent source call.name).OfValue := ⟨rfl, rfl⟩
  cases h with
  | answered _ => simp [Step.OfValue]
  | unknown _ _ => simpa [Step.OfValue] using unknown
  | failed _ _ => simp [Step.OfValue, failed]
  | unknownPassed _ _ => simpa [Step.OfValue] using passed
  | failedPassed _ _ => simp [Step.OfValue, passed]

theorem ofValue_of_evaluateText {step : Step}
    (h : step ∈ (evaluateText catalog settings [] text : Traced String).steps) : step.OfValue := by
  rw [steps_evaluateText] at h
  obtain ⟨source, hs, h⟩ := List.mem_flatMap.1 h
  obtain ⟨call, hc⟩ := parse?_of_mem_calls hs
  exact (outcome_of_call catalog settings hc).ofValue step h

end Expression

namespace Scope

open Reference

variable (scope : Scope) {source : String} {value : Json} {step : Step}

theorem ofValue_of_expand (h : step ∈ (scope.expand (.string source)).steps) : step.OfValue := by
  rcases scope.mem_steps_expand.1 h with h | ⟨-, h⟩
  · rcases concerns_of_wholeValue h with ⟨_, -, concerns⟩ | ⟨_, rfl⟩
    · exact concerns.ofValue
    · trivial
  · obtain ⟨chain, path, -, own⟩ := mem_steps_expandText_iff_met.1 h
    rcases of_mem_ownSteps own with concerns | ⟨-, inner, -, rfl | hook⟩
    · exact concerns.ofValue
    · trivial
    · exact Expression.ofValue_of_evaluateText (scope.mem_steps_evaluateExpanded.1 hook).2.2

/-- No step of resolving a value tells which token has the value. -/
theorem ofValue_of_mem_steps (h : step ∈ (scope.resolve value).steps) : step.OfValue := by
  cases value with
  | string source =>
    rw [resolve] at h
    split at h
    · rcases List.mem_append.1 h with h | h
      · exact scope.ofValue_of_expand h
      · obtain rfl : step = .noted (leftAsWrittenEvent source) := by simpa using h
        trivial
    · rcases List.mem_append.1 h with h | h
      · exact scope.ofValue_of_expand h
      · cases hv : (scope.expand (.string source)).value with
        | string text =>
          rw [hv, evaluateValue, Traced.steps_bind, Traced.steps_pure, List.append_nil] at h
          exact Expression.ofValue_of_evaluateText h
        | _ => simp [hv, evaluateValue] at h
  | _ => simp [resolve] at h

theorem ofValue_of_mem_events {e : Event} (h : e ∈ (scope.resolve value).events) : e.OfValue := by
  obtain ⟨step, hs, hr⟩ := List.mem_filterMap.1 h
  have ofValue := scope.ofValue_of_mem_steps hs
  cases step with
  | raised event =>
    obtain rfl := Option.some.inj hr
    exact ofValue
  | _ => simp [Step.raised?] at hr

end Scope

end DesignTokens
