import DesignTokens.Proofs.Diagnostic.Warnings
import DesignTokens.Proofs.Engine.Walk

/-!
# What reports say of warnings

A report says that there are warnings, and names them, if one of the first diagnostics up to the limit
is a warning. A warning that is raised past the limit leaves no trace in the text and in the answer
whether there are warnings, and a value that raises no other counts as resolved. The counter of the
report knows of it, but it counts such a warning each time that it is raised.

Below the limit, a report tells of every warning, and its counter is the number of different ones.
-/

namespace DesignTokens

open Event (Leveled distinct firstOccurrences surplus)
open Collector (Operation fresh limit raisedIn)

namespace Report

variable {r : Report} {raised : List Event}

/-- What a report says of the warnings among some diagnostics. -/
structure Tells (r : Report) (raised : List Event) : Prop where
  hasWarnings : r.hasWarnings = true ↔
    ∃ e ∈ (firstOccurrences raised).take limit, e.isWarning = true
  text : r.text = "" ↔
    ∀ e ∈ (firstOccurrences raised).take limit, e.isWarning = false ∧ e.isError = false
  /-- The counter knows of warnings past the limit, too. -/
  counter : Leveled raised →
    (0 < r.diagnostics.warningCount ↔ ∃ e ∈ raised, e.isWarning = true)
  /-- Below the limit no warning is lost. -/
  complete : Leveled raised → distinct raised ≤ limit → (∃ e ∈ raised, e.isWarning = true) →
    r.hasWarnings = true ∧ r.text ≠ ""

theorem hasWarnings_iff :
    r.hasWarnings = true ↔ ∃ e ∈ r.events, e.isWarning = true := Collector.hasWarnings_iff

theorem text_ne_empty (h : r.hasWarnings = true) : r.text ≠ "" := by
  obtain ⟨e, he, warning⟩ := hasWarnings_iff.1 h
  intro empty
  have silent := (Collector.report_eq_empty_iff.1 empty e he).1
  rw [warning] at silent
  exact absurd silent (by decide)

theorem tells_of_hasTaken (taken : r.diagnostics.HasTaken raised)
    (counted : r.diagnostics.HasCounted raised) : r.Tells raised := by
  have events : r.events = (firstOccurrences raised).take limit := taken.events
  have told : r.hasWarnings = true ↔
      ∃ e ∈ (firstOccurrences raised).take limit, e.isWarning = true := by
    rw [← events]
    exact hasWarnings_iff
  refine ⟨told, ?text, counted.warningCount_pos_iff taken, ?complete⟩
  case text =>
    rw [← events]
    exact Collector.report_eq_empty_iff
  case complete =>
    rintro level fits ⟨e, he, warning⟩
    obtain ⟨first, hf, same⟩ := Event.exists_mem_firstOccurrences he
    have raisedFirst := Event.mem_of_mem_firstOccurrences hf
    have firstWarning : first.isWarning = true :=
      (level first raisedFirst e he (Event.sameDiagnostic_iff.2 same)).trans warning
    rw [← Event.length_firstOccurrences] at fits
    have warned : r.hasWarnings = true :=
      told.2 ⟨first, by rwa [List.take_of_length_le fits], firstWarning⟩
    exact ⟨warned, text_ne_empty warned⟩

/-- A report on a run of a fresh collector. -/
theorem tells_run (forwards : Bool) (ops : List Operation) (stats : ResolutionStats) :
    (⟨stats, (fresh forwards).after ops⟩ : Report).Tells (raisedIn none ops) :=
  tells_of_hasTaken (Collector.hasTaken_run forwards ops) (Collector.hasCounted_run forwards ops)

end Report

namespace Collector

/-- To record diagnostics one after another is a run. -/
theorem recordAll_eq_after (c : Collector) (events : List Event) :
    c.recordAll events = c.after (events.map .record) := by
  induction events generalizing c with
  | nil => rfl
  | cons e events ih => exact ih (c.record e).1

theorem raisedIn_map_record (events : List Event) :
    raisedIn none (events.map .record) = events := by
  induction events with
  | nil => rfl
  | cons e events ih =>
    have own : { e with path := e.path <|> none } = e := by
      obtain ⟨level, code, message, path, context⟩ := e
      cases path <;> rfl
    rw [List.map_cons, raisedIn, ih, own]

end Collector

/-- The diagnostics of all tokens of a tree, each with the path of its token. -/
def Tree.diagnostics (scope : Scope) (tree : Tree) : List Event :=
  tree.places.flatMap (Walker.diagnostics scope)

namespace Scope

/-- The code of a diagnostic about a value decides whether it is a warning. -/
theorem leveled_resolve (scope : Scope) (value : Json) :
    Leveled (scope.resolve value).events := by
  intro a ha b hb same
  rw [(scope.ofValue_of_mem_events ha).level, (scope.ofValue_of_mem_events hb).level,
    Event.code_eq_of_sameDiagnostic same]

theorem leveled_diagnostics (scope : Scope) (tree : Tree) :
    Leveled (tree.diagnostics scope) := by
  intro a ha b hb same
  obtain ⟨_, -, ha⟩ := List.mem_flatMap.1 ha
  obtain ⟨_, -, hb⟩ := List.mem_flatMap.1 hb
  rw [Walker.level_of_mem_diagnostics scope ha, Walker.level_of_mem_diagnostics scope hb,
    Event.code_eq_of_sameDiagnostic same]

end Scope

namespace Engine

variable (engine : Engine) (tree : Tree)

/-- The report on one value is a report on its diagnostics. -/
theorem diagnostics_resolveOne (value : Json) :
    (engine.resolveOne tree value).report.diagnostics =
      (fresh true).after (((engine.scope tree).resolve value).events.map .record) := by
  change ((engine.scope tree).process value (.start (some .debug))).2.collector = _
  rw [Scope.process_eq, Traced.perform_apply,
    Recorder.collector_after fun step hs => Scope.ofValue_of_mem_steps _ hs,
    Collector.recordAll_eq_after]
  rfl

/-- The report on a tree is a report on the diagnostics of its tokens. -/
theorem diagnostics_resolveAll :
    (engine.resolveAll tree).report.diagnostics =
      (fresh true).after ((tree.diagnostics (engine.scope tree)).map .record) := by
  change (tree.walk (engine.scope tree) (.start (some .debug))).2.recorder.collector = _
  rw [Walker.state_walk, Walker.collector_foldl _ (Walker.fresh_start (some .debug)).path,
    Collector.recordAll_eq_after]
  rfl

theorem tells_resolveOne (value : Json) :
    (engine.resolveOne tree value).report.Tells ((engine.scope tree).resolve value).events := by
  have run := Report.tells_run true (((engine.scope tree).resolve value).events.map .record)
    (engine.resolveOne tree value).report.stats
  rw [← diagnostics_resolveOne, Collector.raisedIn_map_record] at run
  exact run

theorem tells_resolveAll :
    (engine.resolveAll tree).report.Tells (tree.diagnostics (engine.scope tree)) := by
  have run := Report.tells_run true ((tree.diagnostics (engine.scope tree)).map .record)
    (engine.resolveAll tree).report.stats
  rw [← diagnostics_resolveAll, Collector.raisedIn_map_record] at run
  exact run

theorem unresolved_resolveOne (value : Json) :
    (engine.resolveOne tree value).report.stats.unresolved =
      if (engine.resolveOne tree value).report.hasWarnings then 1 else 0 := rfl

/-- A report says that there are warnings exactly if one of the first diagnostics, up to the limit, is a
warning; and its text is empty exactly if none of them is a warning or an error. This holds of every
run of a fresh collector, of a value that is resolved and of a tree. A value counts as unresolved
exactly if its report says that there are warnings. So a warning is lost exactly if it comes past the
limit and no other warning came before: if no more different diagnostics are raised than can be kept,
and none is raised both as a warning and not as one, then every report tells of every warning. That
the code of a diagnostic decides about its level is what all resolutions have in common. -/
theorem reports_tell_of_first_warnings :
    (∀ forwards ops stats,
      (⟨stats, (fresh forwards).after ops⟩ : Report).Tells (raisedIn none ops)) ∧
    (∀ value,
      let raised := ((engine.scope tree).resolve value).events
      let report := (engine.resolveOne tree value).report
      report.Tells raised ∧ Leveled raised ∧
        (report.stats.unresolved = 1 ↔
          ∃ e ∈ (firstOccurrences raised).take limit, e.isWarning = true) ∧
        (distinct raised ≤ limit →
          (report.stats.unresolved = 1 ↔ ∃ e ∈ raised, e.isWarning = true))) ∧
    (engine.resolveAll tree).report.Tells (tree.diagnostics (engine.scope tree)) ∧
      Leveled (tree.diagnostics (engine.scope tree)) := by
  refine ⟨Report.tells_run, ?one, engine.tells_resolveAll tree, Scope.leveled_diagnostics _ tree⟩
  case one =>
    intro value raised report
    have tells : report.Tells raised := engine.tells_resolveOne tree value
    have level : Leveled raised := Scope.leveled_resolve _ value
    have unresolved : report.stats.unresolved = 1 ↔ report.hasWarnings = true := by
      rw [engine.unresolved_resolveOne tree value]
      simp [report]
    refine ⟨tells, level, unresolved.trans tells.hasWarnings, ?_⟩
    intro fits
    rw [unresolved]
    constructor
    · intro warned
      obtain ⟨e, he, warning⟩ := tells.hasWarnings.1 warned
      exact ⟨e, Event.mem_of_mem_firstOccurrences (List.mem_of_mem_take he), warning⟩
    · intro some
      exact (tells.complete level fits some).1

end Engine

namespace Report

section Late

variable {level : Level} {code : Code} {late : Event} {others : List Event}

/-- As many different diagnostics as a collector keeps, each with a longer message. -/
def fill (level : Level) (code : Code) : List Event :=
  (List.range limit).map fun i => .of level code (String.ofList (List.replicate i '.'))

theorem length_fill : (fill level code).length = limit := by simp [fill]

theorem pairwise_fill : (fill level code).Pairwise fun a b => a.sameDiagnostic b = false := by
  rw [fill, List.pairwise_map]
  refine List.nodup_range.imp fun {i j} different => Bool.eq_false_iff.2 fun same => different ?_
  have messages : String.ofList (List.replicate i '.') = String.ofList (List.replicate j '.') :=
    congrArg (fun d => d.2.1) (Event.sameDiagnostic_iff.1 same)
  simpa using congrArg List.length (String.ofList_injective messages)

theorem level_of_mem_fill {e : Event} (h : e ∈ fill level code) : e.level = level := by
  obtain ⟨i, -, rfl⟩ := List.mem_map.1 h
  rfl

theorem code_of_mem_fill {e : Event} (h : e ∈ fill level code) : e.code = code := by
  obtain ⟨i, -, rfl⟩ := List.mem_map.1 h
  rfl

/-- Diagnostics with another code find a collector full that has been filled. -/
theorem surplus_fill (hc : ∀ e ∈ others, e.code ≠ code) :
    (firstOccurrences (fill level code ++ others)).take limit = fill level code ∧
      surplus (fill level code ++ others) = others := by
  refine Event.surplus_append pairwise_fill length_fill fun a ha b hb => ?_
  refine Bool.eq_false_iff.2 fun same => hc b hb ?_
  rw [← Event.code_eq_of_sameDiagnostic same, code_of_mem_fill ha]

/-- A warning. -/
def lateWarning : Event := .warning .plainWarning "late"

/-- A run that fills a collector with notes before it raises a warning. -/
def warnedLate : List Operation := (fill .debug .plainDebug ++ [lateWarning]).map .record

theorem raisedIn_warnedLate :
    raisedIn none warnedLate = fill .debug .plainDebug ++ [lateWarning] :=
  Collector.raisedIn_map_record _

/-- After this run the collector does not know of any warning, and its report in text is empty. -/
theorem late_warning_lost :
    (∃ e ∈ raisedIn none warnedLate, e.isWarning = true) ∧
      ((fresh false).after warnedLate).hasWarnings = false ∧
      ((fresh false).after warnedLate).report = "" := by
  have kept : ((fresh false).after warnedLate).events = fill .debug .plainDebug := by
    rw [(Collector.hasTaken_run false warnedLate).events, raisedIn_warnedLate]
    exact (surplus_fill (by decide)).1
  have silent : ∀ e ∈ fill .debug .plainDebug, e.isWarning = false ∧ e.isError = false := by
    intro e he
    simp [Event.isWarning, Event.isError, level_of_mem_fill he]
  refine ⟨⟨lateWarning, by simp [raisedIn_warnedLate], rfl⟩, ?_, ?_⟩
  · rw [Bool.eq_false_iff, Ne, Collector.hasWarnings_iff, kept]
    rintro ⟨e, he, warning⟩
    rw [(silent e he).1] at warning
    exact absurd warning (by decide)
  · rw [Collector.report_eq_empty_iff, kept]
    exact silent

end Late

section Counter

/-- The count of warnings in a report as JSON. -/
theorem toJson_warnings (r : Report) (seconds : Nat) (date : String) :
    ∃ entries summary, r.toJson seconds date = .object entries ∧
      KeyedList.get? entries "summary" = some (.object summary) ∧
      KeyedList.get? summary "warnings" =
        some (.number (.integer r.diagnostics.warningCount)) :=
  ⟨_, _, rfl, rfl, rfl⟩

/-- The count of warnings in a report, as JSON too, is that of the counter. It counts every warning that
is kept once, and every warning that comes too late to be kept whenever it is raised; what was dropped
is all that came too late. So where the diagnostic decides about the level, the counter is never less
than the number of distinct warnings, and it is this number exactly if none of the warnings that came
too late came twice: for one, if no more different diagnostics were raised than can be kept. -/
theorem late_warnings_counted_each_time (forwards : Bool) (ops : List Operation) :
    let raised := raisedIn none ops
    let c := (fresh forwards).after ops
    (c.warningCount =
        ((firstOccurrences raised).take limit).countP (·.isWarning) +
          (surplus raised).countP (·.isWarning) ∧
      c.dropped = (surplus raised).length) ∧
    (Leveled raised →
      distinct (raised.filter (·.isWarning)) ≤ c.warningCount ∧
        (c.warningCount = distinct (raised.filter (·.isWarning)) ↔
          ((surplus raised).filter (·.isWarning)).Pairwise fun a b => a.sameDiagnostic b = false) ∧
        (distinct raised ≤ limit → c.warningCount = distinct (raised.filter (·.isWarning)))) ∧
    ∀ stats seconds date, ∃ entries summary,
      (⟨stats, c⟩ : Report).toJson seconds date = .object entries ∧
        KeyedList.get? entries "summary" = some (.object summary) ∧
        KeyedList.get? summary "warnings" = some (.number (.integer c.warningCount)) := by
  intro raised c
  have taken : c.HasTaken raised := Collector.hasTaken_run forwards ops
  have counted : c.HasCounted raised := Collector.hasCounted_run forwards ops
  refine ⟨⟨?_, counted.dropped⟩, ?leveled, fun stats => toJson_warnings ⟨stats, c⟩⟩
  · rw [counted.warnings, taken.events]
  case leveled =>
    intro level
    obtain ⟨least, exact_iff⟩ := counted.warningCount_eq_distinct_iff taken level
    refine ⟨least, exact_iff, fun fits => exact_iff.2 ?_⟩
    rw [← Event.length_firstOccurrences] at fits
    have none : surplus raised = [] := by simp [surplus, Event.overflow_eq_nil_iff.2 fits]
    rw [none]
    exact .nil

/-- A run in which a token raises one warning twice, and another token raises it, too. -/
def warnedTwice : List Operation :=
  [.enter "gap", .record lateWarning, .record lateWarning, .leave, .record lateWarning]

theorem late_warnings_counted_each_time_twice :
    Leveled (raisedIn none warnedTwice) ∧ distinct (raisedIn none warnedTwice) ≤ limit ∧
      ((fresh false).after warnedTwice).warningCount = 2 := by
  have level : Leveled (raisedIn none warnedTwice) := by
    intro a ha b hb _
    simp [warnedTwice, raisedIn, lateWarning] at ha hb
    rcases ha with rfl | rfl <;> rcases hb with rfl | rfl <;> rfl
  have fits : distinct (raisedIn none warnedTwice) ≤ limit := by decide
  refine ⟨level, fits, ?_⟩
  rw [((late_warnings_counted_each_time false warnedTwice).2.1 level).2.2 fits]
  decide

/-- A run that fills a collector with warnings before it raises another one twice. -/
def warnedTwiceLate : List Operation :=
  (fill .warning .unresolvedReference ++ [lateWarning, lateWarning]).map .record

/-- After this run, the counter is greater by one than the number of distinct warnings. -/
theorem late_warning_counted_twice :
    ((fresh false).after warnedTwiceLate).warningCount =
      distinct ((raisedIn none warnedTwiceLate).filter (·.isWarning)) + 1 := by
  have raised : raisedIn none warnedTwiceLate =
      fill .warning .unresolvedReference ++ [lateWarning, lateWarning] :=
    Collector.raisedIn_map_record _
  have level : Leveled (raisedIn none warnedTwiceLate) := by
    have warning : ∀ e ∈ raisedIn none warnedTwiceLate, e.isWarning = true := by
      intro e he
      rw [raised, List.mem_append] at he
      rcases he with he | he
      · simp [Event.isWarning, level_of_mem_fill he]
      · obtain rfl : e = lateWarning := by simpa using he
        rfl
    intro a ha b hb _
    rw [warning a ha, warning b hb]
  have late : surplus (raisedIn none warnedTwiceLate) = [lateWarning, lateWarning] := by
    rw [raised]
    exact (surplus_fill (by decide)).2
  have total := (Collector.hasCounted_run false warnedTwiceLate).warningCount_add_distinct
    (Collector.hasTaken_run false warnedTwiceLate) level
  have once : distinct ([lateWarning, lateWarning].filter (·.isWarning)) = 1 := by decide
  have twice : ([lateWarning, lateWarning].filter (·.isWarning)).length = 1 + 1 := rfl
  rw [late, once, twice, ← Nat.add_assoc] at total
  exact Nat.add_right_cancel total

end Counter

end Report

end DesignTokens
