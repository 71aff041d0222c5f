import DesignTokens.Proofs.Reference.Cycle
import DesignTokens.Proofs.Resolution.Process

/-!
# Values that run into a cycle

A value runs into a cycle exactly if one can be reached from its placeholders, and then it comes back
as it is written. Evaluation has no part in this, neither on the way nor at the end: it raises no
cycle of its own.
-/

namespace DesignTokens.Scope

open Reference

variable (scope : Scope) {source : String} {e : Event}

theorem quiet_evaluateExpanded : Quiet scope.evaluateExpanded := by
  intro text e he hcode
  rw [evaluateExpanded] at he
  split at he
  · apply Expression.referenceCycle_notMem_codes
    rw [← hcode]
    exact Expression.code_evaluateText he
  · simp at he

/-- The events of expanding a value are those of expanding its text, if it is read as one at all. -/
theorem events_expand (source : String) :
    (scope.expand (.string source)).events =
      match (wholeValue scope.tree [] source).value with
      | some _ => []
      | none => (expandText scope.tree scope.evaluateExpanded [] source).events := by
  rw [expand, resolveValue, Traced.events_bind, events_wholeValue, List.nil_append]
  cases (wholeValue scope.tree [] source).value with
  | none => simp
  | some value => rfl

theorem reports_of_expand (he : e ∈ (scope.expand (.string source)).events)
    (hcode : e.code = .referenceCycle) :
    ∃ start, Occurs start source ∧ Reports scope.tree [start] e := by
  rw [events_expand] at he
  cases hv : (wholeValue scope.tree [] source).value with
  | none =>
    rw [hv] at he
    exact reports_of_expandText scope.quiet_evaluateExpanded he hcode
  | some value => simp [hv] at he

theorem raises_expand_iff :
    (scope.expand (.string source)).raises .referenceCycle = true ↔
      ReachesCycle scope.tree source := by
  rw [Traced.raises, events_expand]
  cases hv : (wholeValue scope.tree [] source).value with
  | none => exact raises_expandText_iff scope.quiet_evaluateExpanded
  | some value => simpa using not_reachesCycle_of_wholeValue hv

theorem code_evaluateValue {value : Json}
    (he : e ∈ (scope.evaluateValue value : Traced Json).events) : e.code ∈ Expression.codes := by
  cases value with
  | string text =>
    rw [evaluateValue, Traced.events_bind] at he
    exact Expression.code_evaluateText (by simpa using he)
  | _ => simp [evaluateValue] at he

/-- After the references have been expanded, no more cycles are raised. -/
theorem mem_events_resolve_iff (hcode : e.code = .referenceCycle) :
    e ∈ (scope.resolve (.string source)).events ↔
      e ∈ (scope.expand (.string source)).events := by
  rw [resolve]
  split
  · simp [Step.raised?]
  · rw [Traced.events_bind, List.mem_append, or_iff_left]
    intro he
    exact Expression.referenceCycle_notMem_codes (hcode ▸ scope.code_evaluateValue he)

theorem raises_resolve_iff :
    (scope.resolve (.string source)).raises .referenceCycle = true ↔
      ReachesCycle scope.tree source := by
  rw [← raises_expand_iff, Traced.raises_iff, Traced.raises_iff]
  apply exists_congr
  intro e
  apply and_congr_left
  intro hcode
  exact scope.mem_events_resolve_iff hcode

theorem value_resolve_of_reachesCycle (h : ReachesCycle scope.tree source) :
    (scope.resolve (.string source)).value = .string source := by
  rw [resolve, if_pos (scope.raises_expand_iff.2 h)]
  rfl

/-- Processing finds the cycles of references: it raises one, and counts it in the collector, exactly
if one can be reached; the value is then left as it is written; and every cycle is raised with a walk
of references from the value that comes back to a path it has met. -/
theorem process_finds_cycles (source : String) :
    ((scope.resolve (.string source)).raises .referenceCycle = true ↔
        ReachesCycle scope.tree source) ∧
      (∀ e ∈ (scope.resolve (.string source)).events, e.code = .referenceCycle →
        ∃ start, Occurs start source ∧ Reports scope.tree [start] e) ∧
      ∀ r : Recorder,
        scope.process (.string source) r = (scope.resolve (.string source)).perform r ∧
        (r.collector.count .referenceCycle <
            (scope.process (.string source) r).2.collector.count .referenceCycle ↔
          ReachesCycle scope.tree source) ∧
        (ReachesCycle scope.tree source →
          (scope.process (.string source) r).1 = .string source) := by
  refine ⟨scope.raises_resolve_iff, ?_, ?_⟩
  · intro e he hcode
    exact scope.reports_of_expand ((scope.mem_events_resolve_iff hcode).1 he) hcode
  · intro r
    rw [process_eq]
    refine ⟨rfl, ?_, ?_⟩
    · rw [Recorder.count_lt_count_perform]
      exact scope.raises_resolve_iff
    · intro h
      exact scope.value_resolve_of_reachesCycle h

end DesignTokens.Scope
