import DesignTokens.Proofs.Evaluation.Outcome
import DesignTokens.Proofs.Reference.Hook
import DesignTokens.Proofs.Resolution.Cycle
import DesignTokens.Proofs.Resolution.Locality

/-!
# References are resolved in a single pass

Calls are evaluated while references are expanded, but what a function answers is not read for
references again, and neither is the JSON text of a value. So nothing about references depends on the
catalog or the settings: the tokens that are entered and left, the diagnostics about references, and
whether the value is left as it is written because of a cycle. The paths that are looked up are those
that can be reached from the value through the texts of tokens.
-/

namespace DesignTokens

open Reference

/-- Applying calls tells nothing about references. -/
theorem Expression.CallStep.isReferenceStep {step : Step} (h : Expression.CallStep step) :
    isReferenceStep step = false := by
  cases h with
  | applied name args => rfl
  | answered source result => rfl
  | raised code =>
    simp only [Expression.callCodes, List.mem_cons, List.not_mem_nil, or_false] at code
    rcases code with hc | hc | hc <;> simp only [Reference.isReferenceStep, hc] <;> decide

theorem Expression.referenceSteps_of_callSteps {α : Type} {x : Traced α}
    (h : ∀ step ∈ x.steps, Expression.CallStep step) : x.referenceSteps = [] := by
  apply List.filter_eq_nil_iff.2
  intro step hs
  simp [(h step hs).isReferenceStep]

/-- What tells about a reference applies no call. -/
theorem Reference.Concerns.not_callStep {path : String} {step : Step} (h : Concerns path step) :
    ¬ Expression.CallStep step := by
  intro hs
  exact absurd h.isReferenceStep (by simp [hs.isReferenceStep])

/-- The only notes about calls are those about answers. -/
theorem Expression.CallStep.message_of_noted {e : Event} (h : Expression.CallStep (.noted e)) :
    e.message = "Function evaluated" := by
  generalize he : Step.noted e = step at h
  cases h with
  | answered source result => rw [Step.noted.inj he]; rfl
  | applied name args => simp at he
  | raised code => simp at he

namespace Scope

open Expression (CallStep)

variable (scope : Scope) {source text : String} {value : Json} {step : Step}

/-- The hook evaluates a text if it is a call without placeholders. -/
theorem mem_steps_evaluateExpanded :
    step ∈ (scope.evaluateExpanded text : Traced String).steps ↔
      isCall text = true ∧ occursIn text = false ∧
        step ∈ (Expression.evaluateText scope.catalog scope.settings [] text : Traced String).steps := by
  rw [evaluateExpanded]
  split
  · rename_i h
    simp only [Bool.and_eq_true, Bool.not_eq_true'] at h
    simp [h.1, h.2]
  · rename_i h
    simp only [Bool.and_eq_true, Bool.not_eq_true'] at h
    simp only [Traced.steps_pure, List.not_mem_nil, false_iff]
    rintro ⟨isCall, plain, -⟩
    exact h ⟨isCall, plain⟩

theorem callStep_of_evaluateExpanded
    (h : step ∈ (scope.evaluateExpanded text : Traced String).steps) : CallStep step := by
  obtain ⟨-, -, hs⟩ := scope.mem_steps_evaluateExpanded.1 h
  exact Expression.callStep_of_mem_steps _ _ hs

theorem callStep_of_evaluateValue
    (h : step ∈ (scope.evaluateValue value : Traced Json).steps) : CallStep step := by
  cases value with
  | string text =>
    rw [evaluateValue, Traced.steps_bind, Traced.steps_pure, List.append_nil] at h
    exact Expression.callStep_of_mem_steps _ _ h
  | _ => simp [evaluateValue] at h

theorem silent_evaluateExpanded : Silent scope.evaluateExpanded := by
  intro text
  apply Expression.referenceSteps_of_callSteps
  intro step hs
  exact scope.callStep_of_evaluateExpanded hs

theorem referenceSteps_evaluateValue (value : Json) :
    (scope.evaluateValue value : Traced Json).referenceSteps = [] := by
  apply Expression.referenceSteps_of_callSteps
  intro step hs
  exact scope.callStep_of_evaluateValue hs

theorem referenceSteps_expand (value : Json) :
    (scope.expand value).referenceSteps =
      (resolveValue scope.tree pure [] value).referenceSteps :=
  referenceSteps_resolveValue scope.silent_evaluateExpanded scope.tree [] value

/-- What is told about references is what an expansion without evaluation tells. -/
theorem referenceSteps_resolve (value : Json) :
    (scope.resolve value).referenceSteps =
      (resolveValue scope.tree pure [] value).referenceSteps := by
  cases value with
  | string source =>
    rw [← referenceSteps_expand, resolve]
    split
    · simp [isReferenceStep]
    · rw [Traced.referenceSteps_bind, referenceSteps_evaluateValue, List.append_nil]
  | _ => rfl

/-- Expanding a value follows whole-value references first, and then expands it as a text, unless it
stands for a value of another type. -/
theorem mem_steps_expand :
    step ∈ (scope.expand (.string source)).steps ↔
      step ∈ (wholeValue scope.tree [] source).steps ∨
        (wholeValue scope.tree [] source).value = none ∧
          step ∈ (expandText scope.tree scope.evaluateExpanded [] source).steps := by
  rw [expand, resolveValue, Traced.steps_bind, List.mem_append]
  cases hv : (wholeValue scope.tree [] source).value <;> simp

/-- The steps of expanding a value tell about references that it reaches, or hand a text to the hook,
or note that the value is of another type, or apply a call. -/
theorem of_mem_steps_expand (h : step ∈ (scope.expand (.string source)).steps) :
    (∃ path, Reaches scope.tree source path ∧ Concerns path step) ∨
      (∃ path text, step = .expanded path text) ∨ (∃ path, step = .noted (typedEvent path)) ∨
        CallStep step := by
  rcases scope.mem_steps_expand.1 h with h | ⟨-, h⟩
  · rcases concerns_of_wholeValue h with concerns | typed
    · exact .inl concerns
    · exact .inr (.inr (.inl typed))
  · obtain ⟨chain, path, met, own⟩ := mem_steps_expandText_iff_met.1 h
    rcases of_mem_ownSteps own with concerns | ⟨-, inner, -, handed | hook⟩
    · exact .inl ⟨path, met.reaches, concerns⟩
    · exact .inr (.inl ⟨path, _, handed⟩)
    · exact .inr (.inr (.inr (scope.callStep_of_evaluateExpanded hook)))

/-- After the references have been expanded, calls are applied, or it is noted that there is a cycle. -/
theorem of_mem_steps_resolve (h : step ∈ (scope.resolve (.string source)).steps) :
    step ∈ (scope.expand (.string source)).steps ∨ step = .noted (leftAsWrittenEvent source) ∨
      CallStep step := by
  rw [resolve] at h
  split at h
  · rcases List.mem_append.1 h with h | h
    · exact .inl h
    · exact .inr (.inl (by simpa using h))
  · rcases List.mem_append.1 h with h | h
    · exact .inl h
    · exact .inr (.inr (scope.callStep_of_evaluateValue h))

/-- All diagnostics are about references or about calls. -/
theorem code_of_mem_events_resolve {e : Event} (he : e ∈ (scope.resolve value).events) :
    e.code ∈ codes ∨ e.code ∈ Expression.callCodes := by
  obtain ⟨step, hs, hr⟩ := List.mem_filterMap.1 he
  have call (h : CallStep step) : e.code ∈ Expression.callCodes := by
    cases h with
    | raised code =>
      obtain rfl := Option.some.inj hr
      exact code
    | _ => simp [Step.raised?] at hr
  cases value with
  | string source =>
    rcases scope.of_mem_steps_resolve hs with hs | rfl | applied
    · rcases scope.of_mem_steps_expand hs with
        ⟨path, -, concerns⟩ | ⟨path, text, rfl⟩ | ⟨path, rfl⟩ | applied
      · left
        have told := concerns.isReferenceStep
        cases step with
        | raised e' =>
          obtain rfl := Option.some.inj hr
          simpa [isReferenceStep] using told
        | _ => simp [Step.raised?] at hr
      · simp [Step.raised?] at hr
      · simp [Step.raised?] at hr
      · exact .inr (call applied)
    · simp [Step.raised?] at hr
    · exact .inr (call applied)
  | _ => simp [resolve] at hs

/-- What is told about references concerns paths that the value reaches. -/
theorem concerns_of_mem_referenceSteps
    (h : step ∈ (scope.resolve (.string source)).referenceSteps) :
    ∃ path, Reaches scope.tree source path ∧ Concerns path step := by
  rw [referenceSteps_resolve, ← referenceSteps_expand] at h
  obtain ⟨hs, hr⟩ := List.mem_filter.1 h
  rcases scope.of_mem_steps_expand hs with concerns | ⟨path, text, rfl⟩ | ⟨path, rfl⟩ | call
  · exact concerns
  · simp [isReferenceStep] at hr
  · simp [isReferenceStep] at hr
  · simp [call.isReferenceStep] at hr

/-- The diagnostics about references decide about their counters. -/
theorem count_process_of_mem_codes {code : Code} (hc : code ∈ codes) (value : Json)
    (r : Recorder) :
    (scope.process value r).2.collector.count code = r.collector.count code +
      ((scope.resolve value).referenceSteps.filterMap Step.raised?).countP (·.code == code) := by
  have own (e : Event) : (e.code == code) = (e.code == code && codes.contains e.code) := by
    by_cases he : e.code = code
    · simp [he, hc]
    · simp [he]
  rw [process_eq, Traced.perform_apply, Recorder.count_after, ← Traced.filter_events,
    List.countP_filter, ← funext own]
  rfl

section LeftAsWritten

/-- A value comes back as it is written since its references run into a cycle. -/
def LeftAsWritten (scope : Scope) (value : Json) : Prop :=
  ∃ source, value = .string source ∧
    .noted (leftAsWrittenEvent source) ∈ (scope.resolve value).steps

theorem not_callStep_leftAsWritten (source : String) :
    ¬ CallStep (.noted (leftAsWrittenEvent source)) := by
  intro h
  have message : "Value left as written after a reference cycle" = "Function evaluated" :=
    h.message_of_noted
  simp at message

theorem not_callStep_typed (path : String) : ¬ CallStep (.noted (typedEvent path)) := by
  intro h
  have message : "Whole-value reference resolved to typed value" = "Function evaluated" :=
    h.message_of_noted
  simp at message

/-- A value that runs into a cycle is left as it is written after its references have been expanded. -/
theorem steps_resolve_of_reachesCycle (h : ReachesCycle scope.tree source) :
    (scope.resolve (.string source)).steps =
      (scope.expand (.string source)).steps ++ [.noted (leftAsWrittenEvent source)] := by
  rw [resolve, if_pos (scope.raises_expand_iff.2 h)]
  rfl

theorem leftAsWritten_iff :
    scope.LeftAsWritten (.string source) ↔ ReachesCycle scope.tree source := by
  constructor
  · rintro ⟨_, he, hs⟩
    obtain rfl := Json.string.inj he
    by_contra hn
    rw [resolve, if_neg (mt scope.raises_expand_iff.1 hn), Traced.steps_bind] at hs
    rcases List.mem_append.1 hs with hs | hs
    · rcases scope.of_mem_steps_expand hs with ⟨path, -, concerns⟩ | ⟨path, text, he⟩ | ⟨path, he⟩ | call
      · cases concerns
      · simp at he
      · have message : "Value left as written after a reference cycle" =
            "Whole-value reference resolved to typed value" :=
          congrArg Event.message (Step.noted.inj he)
        simp at message
      · exact not_callStep_leftAsWritten source call
    · exact not_callStep_leftAsWritten source (scope.callStep_of_evaluateValue hs)
  · intro h
    refine ⟨source, rfl, ?_⟩
    rw [steps_resolve_of_reachesCycle scope h]
    simp

end LeftAsWritten

/-- References are resolved in a single pass. With one catalog and settings or with others, the same
tokens are entered and left, the same diagnostics about references are raised and counted, and the
value is left as it is written because of a cycle or not. Everything of this concerns paths that the
value reaches through the texts of tokens; what any tree holds at other paths makes no difference. -/
theorem references_ignore_functions (catalog catalog' : Catalog) (settings settings' : Settings)
    (tree : Tree) (value : Json) :
    let one : Scope := ⟨catalog, settings, tree⟩
    let other : Scope := ⟨catalog', settings', tree⟩
    (one.resolve value).referenceSteps = (other.resolve value).referenceSteps ∧
      (one.resolve value).events.filter (fun e => codes.contains e.code) =
        (other.resolve value).events.filter (fun e => codes.contains e.code) ∧
      (one.LeftAsWritten value ↔ other.LeftAsWritten value) ∧
      (one.LeftAsWritten value →
        (one.resolve value).value = value ∧ (other.resolve value).value = value) ∧
      (∀ r : Recorder,
        one.process value r = (one.resolve value).perform r ∧
        other.process value r = (other.resolve value).perform r ∧
        ∀ code ∈ codes, (one.process value r).2.collector.count code =
          (other.process value r).2.collector.count code) ∧
      ∀ source, value = .string source →
        (∀ step ∈ (one.resolve value).referenceSteps,
          ∃ path, Reaches tree source path ∧ Concerns path step) ∧
        ∀ tree' : Tree,
          (∀ path, Reaches tree source path → target tree' path = target tree path) →
            (Scope.mk catalog settings tree').resolve value = one.resolve value := by
  intro one other
  have steps : (one.resolve value).referenceSteps = (other.resolve value).referenceSteps := by
    rw [referenceSteps_resolve, referenceSteps_resolve]
  have events : (one.resolve value).events.filter (fun e => codes.contains e.code) =
      (other.resolve value).events.filter (fun e => codes.contains e.code) := by
    rw [Traced.filter_events, Traced.filter_events, steps]
  refine ⟨steps, events, ?_, ?_, ?_, ?_⟩
  · cases value with
    | string source => rw [leftAsWritten_iff, leftAsWritten_iff]
    | _ => simp [LeftAsWritten]
  · rintro ⟨source, rfl, hs⟩
    have cycle : ReachesCycle tree source := one.leftAsWritten_iff.1 ⟨source, rfl, hs⟩
    exact ⟨one.value_resolve_of_reachesCycle cycle, other.value_resolve_of_reachesCycle cycle⟩
  · intro r
    refine ⟨by rw [process_eq], by rw [process_eq], ?_⟩
    intro code hc
    rw [count_process_of_mem_codes one hc, count_process_of_mem_codes other hc, steps]
  · rintro source rfl
    exact ⟨fun step hs => one.concerns_of_mem_referenceSteps hs,
      fun tree' h => resolve_eq_of_reaches h⟩

end Scope

end DesignTokens
