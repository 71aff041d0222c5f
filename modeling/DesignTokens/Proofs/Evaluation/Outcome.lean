import DesignTokens.Proofs.Diagnostic.Counting
import DesignTokens.Proofs.Evaluation.Guard

/-!
# What becomes of calls

The calls in an expression are applied one after another: those in the arguments of a call from left
to right, and then the call. Every one has an outcome of its own, which depends on its text alone: its
function answers, or it stays as it is written, or it is left for the browser with its evaluated
arguments. In the latter two cases one diagnostic is raised, and in the first one none.

The steps of an evaluation are those of the outcomes, in this order, and no others.
-/

namespace DesignTokens.Expression

variable {catalog : Catalog} {settings : Settings} {text source : String} {call : Call}

section Calls

mutual

/-- The texts of the calls in an expression: of those in its arguments, from left to right, and then
its own, if it is a call. -/
def calls : Expression → List String
  | .literal _ => []
  | .call source _ arguments => callsAll arguments ++ [source]

/-- The texts of the calls in some expressions, from left to right. -/
def callsAll : List Expression → List String
  | [] => []
  | e :: es => calls e ++ callsAll es

end

theorem callsAll_eq (es : List Expression) : callsAll es = es.flatMap calls := by
  induction es with
  | nil => rfl
  | cons e es ih => rw [callsAll, ih, List.flatMap_cons]

theorem calls_of_literal (h : Call.parse? text = none) : calls (parse text) = [] := by
  rw [parse_of_not_isCall (parse?_eq_none_iff.1 h), calls]

theorem calls_of_call (h : Call.parse? text = some call) :
    calls (parse text) = (call.arguments.flatMap fun arg => calls (parse arg)) ++ [text] := by
  rw [parse_of_call h, calls, callsAll_eq, List.flatMap_map]

/-- What is listed as a call is one. -/
theorem parse?_of_mem_calls (h : source ∈ calls (parse text)) :
    ∃ call, Call.parse? source = some call := by
  induction text using argument_induction with
  | literal text hc => simp [calls_of_literal hc] at h
  | call text call hc ih =>
    rw [calls_of_call hc] at h
    rcases List.mem_append.1 h with h | h
    · obtain ⟨arg, ha, hs⟩ := List.mem_flatMap.1 h
      exact ih arg ha hs
    · obtain rfl := List.mem_singleton.1 h
      exact ⟨call, hc⟩

end Calls

section Steps

/-- The text that a text evaluates to. -/
def valueOf (catalog : Catalog) (settings : Settings) (text : String) : String :=
  (evaluateText catalog settings [] text : Traced String).value

/-- The application of the call that a text is to what its arguments evaluate to. -/
def applyCall (catalog : Catalog) (settings : Settings) (text : String) (call : Call) :
    Traced String :=
  apply catalog settings text call.name (call.arguments.map (valueOf catalog settings))

theorem evaluateAllFreely_parse (args : List String) :
    (evaluateAllFreely catalog settings (args.map parse) : Traced (List String)) =
      ⟨args.map (valueOf catalog settings),
        args.flatMap fun arg => (evaluateText catalog settings [] arg : Traced String).steps⟩ := by
  induction args with
  | nil => rfl
  | cons arg args ih =>
    rw [List.map_cons, evaluateAllFreely, ih, ← evaluateText_eq_evaluateFreely]
    exact Traced.ext rfl (by simp)

/-- A call evaluates its arguments, from left to right, and then applies its function to the results. -/
theorem evaluateText_of_call (h : Call.parse? text = some call) :
    (evaluateText catalog settings [] text : Traced String) =
      ⟨(applyCall catalog settings text call).value,
        (call.arguments.flatMap fun arg =>
          (evaluateText catalog settings [] arg : Traced String).steps) ++
            (applyCall catalog settings text call).steps⟩ := by
  rw [evaluateText_eq_evaluateFreely, parse_of_call h, evaluateFreely, evaluateAllFreely_parse]
  rfl

/-- The steps of the call alone that a text is, without those of its arguments. -/
def ownSteps (catalog : Catalog) (settings : Settings) (text : String) : List Step :=
  match Call.parse? text with
  | none => []
  | some call => (applyCall catalog settings text call).steps

/-- An evaluation takes the steps of its calls, one call after another. -/
theorem steps_evaluateText (text : String) :
    (evaluateText catalog settings [] text : Traced String).steps =
      (calls (parse text)).flatMap (ownSteps catalog settings) := by
  induction text using argument_induction with
  | literal text hc =>
    rw [evaluateText_of_not_isCall (parse?_eq_none_iff.1 hc), calls_of_literal hc]
    rfl
  | call text call hc ih =>
    have inside : (call.arguments.flatMap fun arg => calls (parse arg)).flatMap
        (ownSteps catalog settings) =
          call.arguments.flatMap fun arg =>
            (evaluateText catalog settings [] arg : Traced String).steps := by
      rw [List.flatMap_assoc]
      exact List.flatMap_congr fun arg ha => (ih arg ha).symm
    rw [evaluateText_of_call hc, calls_of_call hc, List.flatMap_append, inside,
      List.flatMap_singleton, ownSteps, hc]

end Steps

/-- The codes of the diagnostics about calls that are not answered. -/
def callCodes : List Code := [.unknownFunction, .functionFailed, .cssPassthrough]

/-- What becomes of a call with evaluated arguments: the text that it evaluates to, and the steps that
this takes. -/
inductive Outcome (catalog : Catalog) (settings : Settings) (source : String) (call : Call) :
    String → List Step → Prop where
  /-- The function answers, and nothing is raised. -/
  | answered {result : String}
      (answer : catalog.call? call.name call.arguments settings = some (.ok result)) :
      Outcome catalog settings source call result
        [.applied call.name call.arguments, .noted (answeredEvent source result)]
  /-- There is no function of the name, and the call stays as it is written. -/
  | unknown (absent : catalog.call? call.name call.arguments settings = none)
      (kept : settings.isCssPassthrough call.name = false) :
      Outcome catalog settings source call source [.raised (unknownEvent source call.name)]
  /-- The function fails, and the call stays as it is written. -/
  | failed {error : FunctionError}
      (failure : catalog.call? call.name call.arguments settings = some (.error error))
      (kept : settings.isCssPassthrough call.name = false) :
      Outcome catalog settings source call source
        [.applied call.name call.arguments, .raised (failedEvent source call.name error)]
  /-- There is no function of the name, and the call is left for the browser. -/
  | unknownPassed (absent : catalog.call? call.name call.arguments settings = none)
      (passed : settings.isCssPassthrough call.name = true) :
      Outcome catalog settings source call call.signature
        [.raised (passthroughEvent source call.name)]
  /-- The function fails, and the call is left for the browser. -/
  | failedPassed {error : FunctionError}
      (failure : catalog.call? call.name call.arguments settings = some (.error error))
      (passed : settings.isCssPassthrough call.name = true) :
      Outcome catalog settings source call call.signature
        [.applied call.name call.arguments, .raised (passthroughEvent source call.name)]

namespace Outcome

variable {name : String} {args : List String} {reason : Event}

theorem unanswered_eq_kept (h : settings.isCssPassthrough name = false) :
    (unanswered settings source name args reason : Traced String) = ⟨source, [.raised reason]⟩ := by
  rw [unanswered, if_neg (by simp [h])]
  rfl

theorem unanswered_eq_passed (h : settings.isCssPassthrough name = true) :
    (unanswered settings source name args reason : Traced String) =
      ⟨Call.signature ⟨name, args⟩, [.raised (passthroughEvent source name)]⟩ := by
  rw [unanswered, if_pos h]
  rfl

theorem apply_eq_absent (h : catalog.call? name args settings = none) :
    (apply catalog settings source name args : Traced String) =
      unanswered settings source name args (unknownEvent source name) := by
  rw [Catalog.call?, Option.map_eq_none_iff] at h
  rw [apply, h]

theorem apply_eq_answered {result : String}
    (h : catalog.call? name args settings = some (.ok result)) :
    (apply catalog settings source name args : Traced String) =
      ⟨result, [.applied name args, .noted (answeredEvent source result)]⟩ := by
  obtain ⟨body, hb, ha⟩ := Option.map_eq_some_iff.1 h
  simp only [apply, hb, ha]
  rfl

theorem apply_eq_failed {error : FunctionError}
    (h : catalog.call? name args settings = some (.error error)) :
    (apply catalog settings source name args : Traced String) =
      (Tracing.step (.applied name args) >>= fun _ =>
        unanswered settings source name args (failedEvent source name error)) := by
  obtain ⟨body, hb, ha⟩ := Option.map_eq_some_iff.1 h
  simp only [apply, hb, ha]

/-- Applying a function has one of the outcomes. -/
theorem of_apply (source : String) (call : Call) :
    Outcome catalog settings source call
      (apply catalog settings source call.name call.arguments : Traced String).value
      (apply catalog settings source call.name call.arguments : Traced String).steps := by
  cases hc : catalog.call? call.name call.arguments settings with
  | none =>
    rw [apply_eq_absent hc]
    cases hp : settings.isCssPassthrough call.name with
    | true =>
      rw [unanswered_eq_passed hp]
      exact .unknownPassed hc hp
    | false =>
      rw [unanswered_eq_kept hp]
      exact .unknown hc hp
  | some answer =>
    cases answer with
    | ok result =>
      rw [apply_eq_answered hc]
      exact .answered hc
    | error error =>
      rw [apply_eq_failed hc]
      cases hp : settings.isCssPassthrough call.name with
      | true =>
        rw [unanswered_eq_passed hp]
        exact .failedPassed hc hp
      | false =>
        rw [unanswered_eq_kept hp]
        exact .failed hc hp

variable {result : String} {steps : List Step}

end Outcome

/-- A step that the application of a call takes. -/
inductive CallStep : Step → Prop where
  | applied (name : String) (args : List String) : CallStep (.applied name args)
  | answered (source result : String) : CallStep (.noted (answeredEvent source result))
  | raised {e : Event} (code : e.code ∈ callCodes) : CallStep (.raised e)

theorem Outcome.callStep {result : String} {steps : List Step}
    (h : Outcome catalog settings source call result steps) : ∀ step ∈ steps, CallStep step := by
  have unknown : CallStep (.raised (unknownEvent source call.name)) := .raised (by simp [callCodes])
  have failed (error : FunctionError) : CallStep (.raised (failedEvent source call.name error)) :=
    .raised (by simp [callCodes])
  have passed : CallStep (.raised (passthroughEvent source call.name)) :=
    .raised (by simp [callCodes])
  cases h with
  | answered _ => simp [CallStep.applied, CallStep.answered]
  | unknown _ _ => simpa using unknown
  | failed _ _ => simp [CallStep.applied, failed]
  | unknownPassed _ _ => simpa using passed
  | failedPassed _ _ => simp [CallStep.applied, passed]

section Account

variable (catalog settings)

/-- What becomes of a call, with the steps of the call alone. -/
theorem outcome_of_call (h : Call.parse? text = some call) :
    Outcome catalog settings text
      ⟨call.name, call.arguments.map (valueOf catalog settings)⟩ (valueOf catalog settings text)
      (ownSteps catalog settings text) := by
  have value : valueOf catalog settings text = (applyCall catalog settings text call).value := by
    rw [valueOf, evaluateText_of_call h]
  have steps : ownSteps catalog settings text = (applyCall catalog settings text call).steps := by
    rw [ownSteps, h]
  rw [value, steps]
  exact Outcome.of_apply text ⟨call.name, call.arguments.map (valueOf catalog settings)⟩

/-- Evaluation takes no steps but those of applications. -/
theorem callStep_of_mem_steps {step : Step}
    (h : step ∈ (evaluateText catalog settings [] text : Traced String).steps) : CallStep step := by
  rw [steps_evaluateText] at h
  obtain ⟨source, hs, h⟩ := List.mem_flatMap.1 h
  obtain ⟨call, hc⟩ := parse?_of_mem_calls hs
  exact (outcome_of_call catalog settings hc).callStep step h

end Account

end DesignTokens.Expression
