import DesignTokens.Proofs.Resolution.SinglePass

/-!
# The stack of calls while a value is resolved

The program keeps the signatures of the calls being evaluated on one stack for the whole resolution of
a value: the hook and the last step are handed the same one. Each of them leaves it as it was, so every
evaluation begins with an empty stack, and processing with a stack is processing. The guard against
calls inside themselves never refuses a call on the way.
-/

namespace DesignTokens.Scope

open Reference Expression

variable (scope : Scope)

section Stack

variable {σ : Type} [Observer σ]

/-- `evaluateExpanded`, on a stack. -/
def evaluateExpandedOn (scope : Scope) (text : String) : StateM (Stacked σ) String :=
  if isCall text && !Reference.occursIn text then
    Stacked.evaluateText scope.catalog scope.settings text
  else pure text

/-- `evaluateValue`, on a stack. -/
def evaluateValueOn (scope : Scope) : Json → StateM (Stacked σ) Json
  | .string text => do
    let text ← Stacked.evaluateText scope.catalog scope.settings text
    pure (.string text)
  | value => pure value

theorem evaluateExpandedOn_eq (text : String) {s : Stacked σ} (hs : s.stack = []) :
    scope.evaluateExpandedOn text s = (scope.evaluateExpanded text : Traced String).perform s := by
  rw [evaluateExpandedOn, evaluateExpanded]
  split
  · rw [Stacked.evaluateText_eq, hs]
  · rfl

theorem evaluateValueOn_eq (value : Json) {s : Stacked σ} (hs : s.stack = []) :
    scope.evaluateValueOn value s = (scope.evaluateValue value : Traced Json).perform s := by
  cases value with
  | string text =>
    rw [evaluateValueOn, evaluateValue, Observer.bind_apply, Stacked.evaluateText_eq, hs,
      Traced.perform_bind]
    rfl
  | _ => rfl

end Stack

/-- `expandOn`, with the stack that the hook uses. -/
def expandOnStack (scope : Scope) (value : Json) : StateM (Stacked Recorder) Json := fun s =>
  let (value, t) :=
    Reference.Guarded.resolveValue scope.tree scope.evaluateExpandedOn value (.start [] s)
  (value, t.state)

/-- `process`, with one stack for the hook and the last step. -/
def processOnStack (scope : Scope) (value : Json) : StateM (Stacked Recorder) Json :=
  match value with
  | .string source => do
    let before ← get
    let expanded ← scope.expandOnStack value
    let after ← get
    if before.state.collector.count .referenceCycle <
        after.state.collector.count .referenceCycle then do
      Tracing.step (.noted (leftAsWrittenEvent source))
      pure value
    else scope.evaluateValueOn expanded
  | value => pure value

theorem expandOnStack_eq (value : Json) {s : Stacked Recorder} (hs : s.stack = []) :
    scope.expandOnStack value s = (scope.expand value).perform s := by
  -- the hook does what its trace says on an empty stack only, but no step fills the stack
  have follows : Guarded.Follows (.start [] s)
      (Guarded.resolveValue scope.tree scope.evaluateExpandedOn value) (scope.expand value) :=
    Guarded.follows_resolveValue_of_kept (I := fun s => s.stack = []) (fun _ _ h => h)
      (fun text _ h => scope.evaluateExpandedOn_eq text h) value _ hs
  exact Prod.ext follows.value follows.state

/-- What is left of processing on a stack after the references of a text have been expanded. -/
theorem processOnStack_string (source : String) (s : Stacked Recorder) :
    scope.processOnStack (.string source) s =
      let expanded := scope.expandOnStack (.string source) s
      if s.state.collector.count .referenceCycle <
          expanded.2.state.collector.count .referenceCycle then
        (.string source, Observer.observe expanded.2 (.noted (leftAsWrittenEvent source)))
      else scope.evaluateValueOn expanded.1 expanded.2 := by
  rw [processOnStack]
  simp only [Observer.bind_apply]
  exact apply_ite (fun m : StateM (Stacked Recorder) Json => m _) _ _ _

theorem processOnStack_eq_perform (value : Json) {s : Stacked Recorder} (hs : s.stack = []) :
    scope.processOnStack value s = (scope.resolve value).perform s := by
  cases value with
  | string source =>
    have state : ((scope.expand (.string source)).perform s).2.state =
        ((scope.expand (.string source)).perform s.state).2 := by simp
    have test := Recorder.count_lt_count_perform s.state (scope.expand (.string source))
      .referenceCycle
    rw [← state] at test
    rw [processOnStack_string, expandOnStack_eq scope _ hs, resolve]
    dsimp only
    by_cases hc : (scope.expand (.string source)).raises .referenceCycle = true
    · rw [if_pos hc, if_pos (test.2 hc), Traced.perform_bind]
      rfl
    · rw [if_neg hc, if_neg (mt test.1 hc), Traced.perform_bind,
        evaluateValueOn_eq scope _ ((Stacked.stack_perform _ s).trans hs)]
      rfl
  | _ => rfl

/-- From an empty stack, processing with the stack is processing, and the stack is left empty. -/
theorem processOnStack_eq (value : Json) (r : Recorder) :
    scope.processOnStack value ⟨[], r⟩ =
      ((scope.process value r).1, ⟨[], (scope.process value r).2⟩) := by
  rw [processOnStack_eq_perform scope value rfl, process_eq, Traced.perform_apply,
    Stacked.after_eq]
  rfl

theorem raises_reentrantCall (value : Json) :
    (scope.resolve value).raises .reentrantCall = false := by
  rw [← Bool.not_eq_true, Traced.raises_iff]
  rintro ⟨e, he, hc⟩
  rcases scope.code_of_mem_events_resolve he with h | h
  all_goals
    rw [hc] at h
    exact absurd h (by decide)

/-- The guard against calls inside themselves refuses nothing. No value raises such a diagnostic, and
none is counted; on one stack for all evaluations, which is empty in the beginning and in the end,
processing does the same. For the calls inside a call are shorter, and have other signatures than the
call; evaluation leaves every stack as it was; and where no call encloses a text, it has the results
and the steps of an evaluation that has no guard. -/
theorem guard_refuses_nothing :
    (∀ value, (scope.resolve value).raises .reentrantCall = false) ∧
      (∀ value (r : Recorder),
        (scope.process value r).2.collector.count .reentrantCall =
            r.collector.count .reentrantCall ∧
          scope.processOnStack value ⟨[], r⟩ =
            ((scope.process value r).1, ⟨[], (scope.process value r).2⟩)) ∧
      WellFounded ArgumentOf ∧
      (∀ inner outer, Inside inner outer → inner.length < outer.length ∧
        ∀ call other, Call.parse? outer = some call → Call.parse? inner = some other →
          other.signature ≠ call.signature) ∧
      (∀ text, (evaluateText scope.catalog scope.settings [] text : Traced String) =
        evaluateFreely scope.catalog scope.settings (parse text)) ∧
      ∀ {σ : Type} [Observer σ] (text : String) (s : Stacked σ),
        (Stacked.evaluateText scope.catalog scope.settings text s).2.stack = s.stack ∧
          (s.stack = [] → Stacked.evaluateText scope.catalog scope.settings text s =
            (evaluateFreely scope.catalog scope.settings (parse text) :
              StateM (Stacked σ) String) s) := by
  refine ⟨scope.raises_reentrantCall, ?_, ArgumentOf.wellFounded, ?_,
    evaluateText_eq_evaluateFreely, ?_⟩
  · intro value r
    refine ⟨?_, scope.processOnStack_eq value r⟩
    rw [process_eq]
    exact Recorder.count_perform_of_not_raises r (scope.raises_reentrantCall value)
  · intro inner outer h
    exact ⟨h.length_lt, fun call other ho hi => h.signature_ne hi ho⟩
  · intro σ _ text s
    rw [Stacked.evaluateText_eq]
    refine ⟨Stacked.stack_perform _ s, ?_⟩
    intro empty
    rw [empty, perform_evaluateText, evaluateText_eq_evaluateFreely]

end DesignTokens.Scope
