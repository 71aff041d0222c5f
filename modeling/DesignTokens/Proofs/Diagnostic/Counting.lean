import DesignTokens.Diagnostic.Recorder

/-!
# What collectors count

A collector counts a diagnostic under its code whether it keeps it, drops it or has it already. So
from any state on, the counter of a code grows by the number of diagnostics with this code, and it
grows at all exactly if there is one.
-/

namespace DesignTokens

namespace Collector

theorem count_eq (c : Collector) (code : Code) :
    c.count code = (KeyedList.get? c.counts code.text).getD 0 := rfl

theorem counts_keep (c : Collector) (e : Event) : (c.keep e).counts = c.counts := by
  rw [keep]
  cases e.isWarning <;> simp only [Bool.false_eq_true, ↓reduceIte] <;> split <;> rfl

theorem counts_record (c : Collector) (e : Event) :
    (c.record e).1.counts = KeyedList.insert c.counts e.code.text (c.count e.code + 1) := by
  by_cases h : c.repeats (c.tag e) = true
  · simp only [record, if_pos h]
    rfl
  · simp only [record, if_neg h]
    exact counts_keep _ _

/-- Kept, dropped or repeated, a diagnostic is counted under its code and under no other. -/
theorem count_record (c : Collector) (e : Event) (code : Code) :
    (c.record e).1.count code = c.count code + [e].countP (·.code == code) := by
  rw [count_eq, counts_record, KeyedList.get?_insert]
  by_cases h : e.code = code
  · subst h
    simp
  · have ht : e.code.text ≠ code.text := fun ht => h (congrArg Code.mk ht)
    simp [h, ht, count_eq]

/-- A step that is no diagnostic is not counted. -/
theorem count_observe (c : Collector) (t : Step) (code : Code) :
    (c.observe t).1.count code = c.count code + t.raised?.toList.countP (·.code == code) := by
  cases t with
  | raised e => exact c.count_record e code
  | _ => rfl

end Collector

namespace Recorder

open Observer

@[simp] theorem collector_send (r : Recorder) (e : Event) : (r.send e).collector = r.collector := by
  rw [send]
  split
  · split <;> rfl
  · rfl

/-- What the log takes makes no difference to the collector. -/
@[simp] theorem collector_observe (r : Recorder) (t : Step) :
    (Observer.observe r t).collector = (r.collector.observe t).1 := by
  change (Recorder.observe r t).collector = _
  cases h : (r.collector.observe t).2 <;> simp [Recorder.observe, h]

/-- The counter of a code grows by the number of diagnostics with it. -/
theorem count_after (r : Recorder) (steps : List Step) (code : Code) :
    (after r steps).collector.count code =
      r.collector.count code + (steps.filterMap Step.raised?).countP (·.code == code) := by
  induction steps generalizing r with
  | nil => simp
  | cons t steps ih =>
    rw [after_cons, ih, collector_observe, Collector.count_observe, Nat.add_assoc,
      ← List.countP_append]
    cases t <;> rfl

/-- The counter of a code tells whether a trace raises it. -/
theorem count_lt_count_perform {α : Type} (r : Recorder) (x : Traced α) (code : Code) :
    r.collector.count code < (x.perform r).2.collector.count code ↔ x.raises code = true := by
  rw [Traced.perform_apply, count_after, Nat.lt_add_right_iff_pos, List.countP_pos_iff,
    Traced.raises_iff]
  simp [Traced.events]

/-- A code that a trace does not raise is not counted. -/
theorem count_perform_of_not_raises {α : Type} (r : Recorder) {x : Traced α} {code : Code}
    (h : x.raises code = false) :
    (x.perform r).2.collector.count code = r.collector.count code := by
  have none : x.events.countP (·.code == code) = 0 := by
    rw [List.countP_eq_zero]
    simpa [Traced.raises] using h
  rw [Traced.perform_apply, count_after]
  exact congrArg _ none

end Recorder

end DesignTokens
