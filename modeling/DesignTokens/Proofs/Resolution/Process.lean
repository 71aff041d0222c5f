import DesignTokens.Proofs.Diagnostic.Counting
import DesignTokens.Proofs.Evaluation
import DesignTokens.Proofs.Reference.Guard
import DesignTokens.Resolution

/-!
# Processing is resolving

On a recorder, `process` has the value of `resolve` and takes the steps of its trace in. Neither what
the collector has seen before nor the log has a say in this: the counter that decides about a cycle is
compared with itself.
-/

namespace DesignTokens.Scope

variable (scope : Scope)

section Perform

variable {σ : Type} [Observer σ]

theorem perform_evaluateExpanded (text : String) :
    (scope.evaluateExpanded text : Traced String).perform =
      (scope.evaluateExpanded text : StateM σ String) := by
  rw [evaluateExpanded, evaluateExpanded]
  split
  · exact Expression.perform_evaluateText [] text
  · rfl

theorem perform_evaluateValue (value : Json) :
    (scope.evaluateValue value : Traced Json).perform =
      (scope.evaluateValue value : StateM σ Json) := by
  cases value with
  | string text =>
    rw [evaluateValue, evaluateValue, Traced.perform_bind, Expression.perform_evaluateText]
    rfl
  | _ => rfl

open Reference in
/-- Under a guard, the hook is evaluated as it is on a trace. -/
theorem follows_expandPath (path : String) (s : Guarded σ) :
    Guarded.Follows s (Guarded.expandPath scope.tree scope.evaluateExpanded path)
      (expandPath scope.tree scope.evaluateExpanded s.chain path) :=
  Guarded.follows_expandPath (fun text => (scope.perform_evaluateExpanded text).symm) path s

open Reference in
theorem follows_expandText (text : String) (s : Guarded σ) :
    Guarded.Follows s (Guarded.expandText scope.tree scope.evaluateExpanded text)
      (expandText scope.tree scope.evaluateExpanded s.chain text) := by
  apply Guarded.follows_expandText _ _ rfl
  intro path _ s' hs
  rw [← hs]
  exact scope.follows_expandPath path s'

end Perform

theorem expandOn_eq (value : Json) : scope.expandOn value = (scope.expand value).perform := by
  funext r
  have follows : Reference.Guarded.Follows (.start [] r)
      (Reference.Guarded.resolveValue scope.tree scope.evaluateExpanded value)
      (scope.expand value) :=
    Reference.Guarded.follows_resolveValue
      (fun text => (scope.perform_evaluateExpanded text).symm) value _
  exact Prod.ext follows.value follows.state

/-- What is left of processing after the references of a text have been expanded. -/
theorem process_string (source : String) (r : Recorder) :
    scope.process (.string source) r =
      let expanded := scope.expandOn (.string source) r
      if r.collector.count .referenceCycle < expanded.2.collector.count .referenceCycle then
        (.string source, Observer.observe expanded.2 (.noted (leftAsWrittenEvent source)))
      else (scope.evaluateValue expanded.1 : StateM Recorder Json) expanded.2 := by
  rw [process]
  simp only [Observer.bind_apply]
  exact apply_ite (fun m : StateM Recorder Json => m _) _ _ _

/-- On every recorder, processing a value is resolving it and taking the steps in. -/
theorem process_eq (value : Json) : scope.process value = (scope.resolve value).perform := by
  cases value with
  | string source =>
    funext r
    have test := Recorder.count_lt_count_perform r (scope.expand (.string source)) .referenceCycle
    rw [process_string, expandOn_eq, resolve]
    dsimp only
    by_cases hc : (scope.expand (.string source)).raises .referenceCycle = true
    · rw [if_pos hc, if_pos (test.2 hc), Traced.perform_bind]
      rfl
    · rw [if_neg hc, if_neg (mt test.1 hc), ← perform_evaluateValue, Traced.perform_bind]
      rfl
  | _ => rfl

/-- The value of processing is that of resolving, on every recorder. -/
theorem value_process (value : Json) (r : Recorder) :
    (scope.process value r).1 = (scope.resolve value).value := by
  rw [process_eq]
  rfl

end DesignTokens.Scope
