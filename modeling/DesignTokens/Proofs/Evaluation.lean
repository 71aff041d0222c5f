import DesignTokens.Evaluation
import DesignTokens.Proofs.Expression.Call

/-!
# Evaluation on a trace and on a state

Evaluation is one definition for all monads that can take steps. On a state that observes steps it
does what its trace says: it has the value of the trace, and takes exactly its steps in. The events
it raises have one of four codes, so none of them tells of a cycle of references. A text that is no
call evaluates to itself.
-/

namespace DesignTokens.Expression

variable {catalog : Catalog} {settings : Settings}

/-- A text that is no call evaluates to itself, without a step. -/
theorem evaluateText_of_not_isCall {m : Type → Type} [Monad m] [Tracing m]
    {enclosing : List String} {text : String} (h : isCall text = false) :
    (evaluateText catalog settings enclosing text : m String) = pure text := by
  rw [evaluateText, parse_of_not_isCall h, evaluate]

/-- Literals evaluate to their texts. -/
theorem evaluateAll_literals (enclosing texts : List String) :
    (evaluateAll catalog settings enclosing (texts.map .literal) : Traced _) = pure texts := by
  induction texts with
  | nil => rw [List.map_nil, evaluateAll]
  | cons text texts ih =>
    rw [List.map_cons, evaluateAll, evaluate, ih]
    rfl

/-- A call with arguments that are no calls evaluates as its function does on their texts. -/
theorem evaluateText_of_parse? {text name : String} {args : List String}
    (h : Call.parse? text = some ⟨name, args⟩) (ha : ∀ arg ∈ args, isCall arg = false) :
    (evaluateText catalog settings [] text : Traced String) =
      apply catalog settings text name args := by
  rw [evaluateText, parse_of_parse? h ha, evaluate, evaluateAll_literals]
  rfl

section Codes

@[simp] theorem code_reentrantEvent (name signature : String) (depth : Nat) :
    (reentrantEvent name signature depth).code = .reentrantCall := rfl

@[simp] theorem code_unknownEvent (source name : String) :
    (unknownEvent source name).code = .unknownFunction := rfl

@[simp] theorem code_failedEvent (source name : String) (error : FunctionError) :
    (failedEvent source name error).code = .functionFailed := rfl

@[simp] theorem code_passthroughEvent (source name : String) :
    (passthroughEvent source name).code = .cssPassthrough := rfl

end Codes

section Perform

variable {σ : Type} [Observer σ]

theorem perform_unanswered (source name : String) (args : List String) (reason : Event) :
    (unanswered settings source name args reason : Traced String).perform =
      (unanswered settings source name args reason : StateM σ String) := by
  simp only [unanswered]
  split <;> rfl

theorem perform_apply (source name : String) (args : List String) :
    (apply catalog settings source name args : Traced String).perform =
      (apply catalog settings source name args : StateM σ String) := by
  rw [apply, apply]
  cases catalog.get? name with
  | none => exact perform_unanswered source name args _
  | some body =>
    simp only [Traced.perform_bind, Traced.perform_step]
    congr 1
    funext u
    cases body ⟨args⟩ settings with
    | ok result => rfl
    | error error => exact perform_unanswered source name args _

mutual

theorem perform_evaluate (enclosing : List String) :
    (e : Expression) → (evaluate catalog settings enclosing e : Traced String).perform =
      (evaluate catalog settings enclosing e : StateM σ String)
  | .literal text => by
    rw [evaluate, evaluate]
    exact Traced.perform_pure text
  | .call source name arguments => by
    rw [evaluate, evaluate]
    split
    · rfl
    · rw [Traced.perform_bind, perform_evaluateAll _ arguments]
      congr 1
      funext args
      exact perform_apply source name args

theorem perform_evaluateAll (enclosing : List String) :
    (es : List Expression) → (evaluateAll catalog settings enclosing es : Traced _).perform =
      (evaluateAll catalog settings enclosing es : StateM σ (List String))
  | [] => by
    rw [evaluateAll, evaluateAll]
    exact Traced.perform_pure []
  | e :: es => by
    rw [evaluateAll, evaluateAll]
    simp only [Traced.perform_bind, perform_evaluate enclosing e, perform_evaluateAll enclosing es]
    rfl

end

/-- On a state, evaluation does what its trace says. -/
theorem perform_evaluateText (enclosing : List String) (text : String) :
    (evaluateText catalog settings enclosing text : Traced String).perform =
      (evaluateText catalog settings enclosing text : StateM σ String) :=
  perform_evaluate enclosing (parse text)

end Perform

section Events

/-- The codes of the events that evaluation raises. -/
def codes : List Code := [.cssPassthrough, .reentrantCall, .unknownFunction, .functionFailed]

theorem code_unanswered {source name : String} {args : List String} {reason e : Event}
    (hr : reason.code ∈ codes)
    (he : e ∈ (unanswered settings source name args reason : Traced String).events) :
    e.code ∈ codes := by
  rw [unanswered] at he
  split at he
  · obtain rfl : e = _ := by simpa using he
    simp [codes]
  · obtain rfl : e = reason := by simpa using he
    exact hr

theorem code_apply {source name : String} {args : List String} {e : Event}
    (he : e ∈ (apply catalog settings source name args : Traced String).events) :
    e.code ∈ codes := by
  rw [apply] at he
  cases hb : catalog.get? name with
  | none =>
    rw [hb] at he
    refine code_unanswered ?_ he
    simp [codes]
  | some body =>
    simp only [hb, Traced.events_bind, Traced.events_step, Step.raised?, Option.toList_none,
      List.nil_append] at he
    cases ha : body ⟨args⟩ settings with
    | ok result => simp [ha, Step.raised?] at he
    | error error =>
      rw [ha] at he
      refine code_unanswered ?_ he
      simp [codes]

mutual

theorem code_evaluate {enclosing : List String} {event : Event} :
    (e : Expression) → event ∈ (evaluate catalog settings enclosing e : Traced String).events →
      event.code ∈ codes
  | .literal text, he => by
    rw [evaluate] at he
    simp at he
  | .call source name arguments, he => by
    rw [evaluate] at he
    split at he
    · obtain rfl : event = _ := by simpa using he
      simp [codes]
    · rw [Traced.events_bind] at he
      rcases List.mem_append.1 he with he | he
      · exact code_evaluateAll arguments he
      · exact code_apply he

theorem code_evaluateAll {enclosing : List String} {event : Event} :
    (es : List Expression) →
      event ∈ (evaluateAll catalog settings enclosing es : Traced _).events → event.code ∈ codes
  | [], he => by
    rw [evaluateAll] at he
    simp at he
  | e :: es, he => by
    rw [evaluateAll] at he
    simp only [Traced.events_bind, Traced.events_pure, List.append_nil] at he
    rcases List.mem_append.1 he with he | he
    · exact code_evaluate e he
    · exact code_evaluateAll es he

end

/-- Evaluation raises nothing but its own diagnostics. -/
theorem code_evaluateText {enclosing : List String} {text : String} {event : Event}
    (he : event ∈ (evaluateText catalog settings enclosing text : Traced String).events) :
    event.code ∈ codes :=
  code_evaluate (parse text) he

theorem referenceCycle_notMem_codes : Code.referenceCycle ∉ codes := by decide

end Events

end DesignTokens.Expression
