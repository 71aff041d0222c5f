import DesignTokens.Diagnostic.Log
import Mathlib.Data.List.DropRight

/-!
# What a log in memory holds

A log in memory goes through operations that log an event or clear the log. What it holds is a window on
the events that it took since it was last cleared: the newest ones, as many as there is room for.

`events_log` says how one event moves the window, and `events_run` follows for all operations by
induction from their end, where both the last operation and the last event are.
-/

namespace DesignTokens

/-- Every event is counted at exactly one level. -/
theorem EventSummary.levels_add_up (events : List Event) :
    (ofEvents events).errors + (ofEvents events).warnings + (ofEvents events).infos +
      (ofEvents events).debugs = (ofEvents events).total := by
  simp only [ofEvents]
  induction events with
  | nil => rfl
  | cons e events ih =>
    have one : (if e.isError then 1 else 0) + (if e.isWarning then 1 else 0) +
        (if e.isInfo then 1 else 0) + (if e.isDebug then 1 else 0) = 1 := by
      obtain ⟨level, code, message, path, context⟩ := e
      cases level <;> rfl
    simp only [List.countP_cons, List.length_cons]
    omega

namespace Log

/-- An operation on a log. -/
inductive Operation where
  | log (event : Event)
  | warn (code : Code) (message : String)
  | succeed (code : Code) (message : String)
  | clear
  deriving DecidableEq

/-- The event that an operation logs. -/
def Operation.event? : Operation → Option Event
  | .log event => some event
  | .warn code message => some (.warning code message)
  | .succeed code message => some (.success code message)
  | .clear => none

/-- The events that some operations log after the last one that clears the log. -/
def sinceClear (operations : List Operation) : List Event :=
  (operations.rtakeWhile (· ≠ .clear)).filterMap Operation.event?

section SinceClear

variable {o : Operation} {e : Event}

@[simp] theorem sinceClear_nil : sinceClear [] = [] := rfl

@[simp] theorem sinceClear_concat_clear (operations : List Operation) :
    sinceClear (operations ++ [.clear]) = [] := by
  simp [sinceClear]

theorem sinceClear_concat (h : o.event? = some e) (operations : List Operation) :
    sinceClear (operations ++ [o]) = sinceClear operations ++ [e] := by
  have logs : o ≠ .clear := by
    rintro rfl
    cases h
  simp [sinceClear, logs, h]

/-- The last event is accepted or not, whatever came before it. -/
theorem accepted_concat (least : Level) (events : List Event) (e : Event) :
    accepted least (events ++ [e]) =
      if takes least e.level then accepted least events ++ [e] else accepted least events := by
  simp only [accepted, List.filter_append, List.filter_cons, List.filter_nil]
  split <;> simp

end SinceClear

namespace Memory

variable {o : Operation} {e : Event}

/-- The log after an operation. -/
def perform (m : Memory) : Operation → Memory
  | .log event => m.log event
  | .warn code message => m.warn code message
  | .succeed code message => m.succeed code message
  | .clear => m.clear

/-- The log after some operations. -/
def run (m : Memory) (operations : List Operation) : Memory := operations.foldl perform m

section Run

@[simp] theorem run_nil (m : Memory) : m.run [] = m := rfl

@[simp] theorem run_concat (m : Memory) (operations : List Operation) (o : Operation) :
    m.run (operations ++ [o]) = (m.run operations).perform o := by
  simp [run]

/-- A warning and a success are logged as any other event. -/
theorem perform_eq_log (h : o.event? = some e) (m : Memory) : m.perform o = m.log e := by
  cases o with
  | clear => cases h
  | _ => cases h; rfl

theorem least_log (m : Memory) (e : Event) : (m.log e).least = m.least := by
  rw [log]
  split <;> rfl

@[simp] theorem least_perform (m : Memory) (o : Operation) : (m.perform o).least = m.least := by
  cases o with
  | clear => rfl
  | _ => exact least_log m _

/-- The level of a log stays. -/
@[simp] theorem least_run (m : Memory) (operations : List Operation) :
    (m.run operations).least = m.least := by
  induction operations using List.reverseRecOn with
  | nil => rfl
  | append_singleton operations o ih => rw [run_concat, least_perform, ih]

end Run

section Window

/-- A full log makes room by dropping its oldest events. -/
theorem toList_extract_of_full {held : Array Event} (full : capacity ≤ held.size) :
    (held.extract (held.size - capacity + 1) held.size).toList =
      held.toList.drop (held.size + 1 - capacity) := by
  rw [Array.toList_extract, List.extract_eq_take_drop, Nat.sub_add_comm full]
  refine List.take_of_length_le ?_
  rw [List.length_drop, Array.length_toList]

/-- An event that is taken comes last, and the oldest ones beyond the capacity go. -/
theorem events_log (m : Memory) (e : Event) :
    (m.log e).events =
      if takes m.least e.level then (m.events ++ [e]).rtake capacity else m.events := by
  rw [log]
  split
  · have window : (m.events ++ [e]).rtake capacity =
        m.held.toList.drop (m.held.size + 1 - capacity) ++ [e] := by
      have room : 0 < capacity := by decide
      have front : m.held.size + 1 - capacity ≤ m.held.toList.length := by
        rw [Array.length_toList]
        omega
      rw [events, List.rtake, List.length_append, List.length_singleton, Array.length_toList,
        List.drop_append_of_le_length front]
    rw [window, events, Array.toList_push]
    split
    · rename_i full
      rw [toList_extract_of_full full]
    · rename_i free
      rw [Nat.sub_eq_zero_of_le (by omega), List.drop_zero]
  · rfl

/-- What has left the window before an event is taken does not come back. -/
theorem rtake_concat_rtake {α : Type} (n : ℕ) (l : List α) (x : α) :
    (l.rtake n ++ [x]).rtake n = (l ++ [x]).rtake n := by
  cases n with
  | zero => simp
  | succ n =>
    have inner : (l.rtake (n + 1)).rtake n = l.rtake n := by
      simp [List.rtake_eq_reverse_take_reverse, List.take_take]
    rw [List.rtake_concat_succ, List.rtake_concat_succ, inner]

/-- A log holds a window on the events that it took since it was cleared. -/
theorem events_run (least : Level) (operations : List Operation) :
    ((empty least).run operations).events =
      (accepted least (sinceClear operations)).rtake capacity := by
  induction operations using List.reverseRecOn with
  | nil => simp [empty, events, accepted]
  | append_singleton operations o ih =>
    cases logs : o.event? with
    | none =>
      cases o with
      | clear => simp [perform, clear, events, accepted]
      | _ => cases logs
    | some e =>
      have level : ((empty least).run operations).least = least := least_run _ _
      rw [run_concat, perform_eq_log logs, events_log, level, ih, sinceClear_concat logs,
        accepted_concat]
      split
      · exact rtake_concat_rtake _ _ e
      · rfl

end Window

/-- After any operations a log in memory holds the last of the events of its level that were logged
since it was cleared, all of them or as many as there is room for, in order. The counts of its summary
add up to the total, and this is the number of events held. -/
theorem newest_events_held (least : Level) (operations : List Operation) :
    let m := (empty least).run operations
    let logged := accepted least (sinceClear operations)
    m.events = logged.rtake (min logged.length capacity) ∧
      m.events.length = min logged.length capacity ∧
      m.summary.errors + m.summary.warnings + m.summary.infos + m.summary.debugs =
        m.summary.total ∧
      m.summary.total = m.held.size := by
  intro m logged
  have window : m.events = logged.rtake (min logged.length capacity) := by
    have whole : logged.length - min logged.length capacity = logged.length - capacity := by omega
    rw [events_run, List.rtake, List.rtake, whole]
  refine ⟨window, ?_, EventSummary.levels_add_up _, Array.length_toList⟩
  rw [window, List.rtake, List.length_drop]
  omega

end Memory

end Log

end DesignTokens
