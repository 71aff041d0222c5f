import DesignTokens.Proofs.Diagnostic.Retention
import Mathlib.Data.Finset.Card

/-!
# Which warnings a collector knows of

Whether there are warnings is read off the events kept, and so is the report in text; so both tell of
the first occurrences up to the limit and of nothing else. The counter of warnings is told of every
event that repeats none of those kept. So a warning that is kept is counted once, and one that comes
too late to be kept is counted whenever it is raised.

`surplus` are the events that came too late. As long as there are none, and events that report the same
diagnostic are warnings together, all three agree with what was raised.
-/

namespace DesignTokens

namespace Event

variable {a b e : Event} {events : List Event}

/-- Events that report the same diagnostic are warnings together or not at all. -/
def Leveled (events : List Event) : Prop :=
  ∀ a ∈ events, ∀ b ∈ events, a.sameDiagnostic b = true → a.isWarning = b.isWarning

/-- How many different diagnostics some events report. -/
def distinct (events : List Event) : Nat := (events.map diagnostic).toFinset.card

/-- The distinct diagnostics that find a collector full. -/
def overflow (events : List Event) : List Event := (firstOccurrences events).drop Collector.limit

/-- The events that report a diagnostic which found the collector full, however often they do. -/
def surplus (events : List Event) : List Event :=
  events.filter fun e => (overflow events).any (·.sameDiagnostic e)

section FirstOccurrences

theorem firstOccurrences_sublist (events : List Event) :
    (firstOccurrences events).Sublist events := by
  induction events using List.reverseRecOn with
  | nil => exact List.Sublist.refl _
  | append_singleton events last ih =>
    rw [firstOccurrences_concat]
    refine ih.append ?_
    split
    · exact List.nil_sublist _
    · exact List.Sublist.refl _

/-- Without repetitions, all are first occurrences. -/
theorem firstOccurrences_eq_self
    (h : events.Pairwise fun a b => a.sameDiagnostic b = false) :
    firstOccurrences events = events := by
  induction events using List.reverseRecOn with
  | nil => rfl
  | append_singleton events last ih =>
    obtain ⟨before, -, new⟩ := List.pairwise_append.1 h
    have fresh : events.any (·.sameDiagnostic last) = false := by
      rw [List.any_eq_false]
      intro e he
      simpa using new e he last (by simp)
    rw [firstOccurrences_concat, ih before, fresh]
    rfl

/-- There are as many first occurrences as events exactly if no event repeats another. -/
theorem length_firstOccurrences_eq_iff :
    (firstOccurrences events).length = events.length ↔
      events.Pairwise fun a b => a.sameDiagnostic b = false := by
  constructor
  · intro h
    have same := (firstOccurrences_sublist events).eq_of_length h
    rw [← same]
    exact pairwise_firstOccurrences events
  · intro h
    rw [firstOccurrences_eq_self h]

/-- The first occurrences are one event for each diagnostic. -/
theorem length_firstOccurrences (events : List Event) :
    (firstOccurrences events).length = distinct events := by
  have nodup : ((firstOccurrences events).map diagnostic).Nodup := by
    rw [List.Nodup, List.pairwise_map]
    refine (pairwise_firstOccurrences events).imp fun different same => ?_
    rw [sameDiagnostic_iff.2 same] at different
    exact absurd different (by decide)
  have same : ((firstOccurrences events).map diagnostic).toFinset =
      (events.map diagnostic).toFinset := by
    ext d
    simp only [List.mem_toFinset, List.mem_map]
    constructor
    · rintro ⟨e, he, rfl⟩
      exact ⟨e, mem_of_mem_firstOccurrences he, rfl⟩
    · rintro ⟨e, he, rfl⟩
      exact exists_mem_firstOccurrences he
  rw [distinct, ← same, List.toFinset_card_of_nodup nodup, List.length_map]

/-- Events that repeat none of some others have their first occurrences apart from those. -/
theorem firstOccurrences_append {others : List Event}
    (apart : ∀ a ∈ events, ∀ b ∈ others, a.sameDiagnostic b = false) :
    firstOccurrences (events ++ others) = firstOccurrences events ++ firstOccurrences others := by
  induction others using List.reverseRecOn with
  | nil => simp [firstOccurrences]
  | append_singleton others last ih =>
    have new : events.any (·.sameDiagnostic last) = false := by
      rw [List.any_eq_false]
      intro e he
      simp [apart e he last (by simp)]
    rw [← List.append_assoc, firstOccurrences_concat, ih fun a ha b hb => apart a ha b (by simp [hb]),
      firstOccurrences_concat, List.any_append, new, Bool.false_or, List.append_assoc]

/-- Where the diagnostic decides about a property, the first occurrences among the events with the
property are the first occurrences that have it. -/
theorem firstOccurrences_filter {p : Event → Bool}
    (h : ∀ a ∈ events, ∀ b ∈ events, a.sameDiagnostic b = true → p a = p b) :
    firstOccurrences (events.filter p) = (firstOccurrences events).filter p := by
  induction events using List.reverseRecOn with
  | nil => rfl
  | append_singleton events last ih =>
    have ih := ih fun a ha b hb => h a (by simp [ha]) b (by simp [hb])
    rw [List.filter_append, firstOccurrences_concat, List.filter_append, ← ih]
    cases has : p last with
    | false => cases events.any (·.sameDiagnostic last) <;> simp [has]
    | true =>
      have seen : (events.filter p).any (·.sameDiagnostic last) =
          events.any (·.sameDiagnostic last) := by
        rw [Bool.eq_iff_iff, List.any_eq_true, List.any_eq_true]
        constructor
        · rintro ⟨e, he, same⟩
          exact ⟨e, (List.mem_filter.1 he).1, same⟩
        · rintro ⟨e, he, same⟩
          have own : p e = true := (h e (by simp [he]) last (by simp) same).trans has
          exact ⟨e, List.mem_filter.2 ⟨he, own⟩, same⟩
      rw [List.filter_cons_of_pos has, List.filter_nil, firstOccurrences_concat, seen]
      cases events.any (·.sameDiagnostic last) <;> simp [has]

end FirstOccurrences

section Surplus

/-- The distinct diagnostics are those up to the limit and those past it. -/
theorem take_append_overflow (events : List Event) :
    (firstOccurrences events).take Collector.limit ++ overflow events = firstOccurrences events :=
  List.take_append_drop _ _

/-- Up to the limit there is no overflow. -/
theorem overflow_eq_nil_iff :
    overflow events = [] ↔ (firstOccurrences events).length ≤ Collector.limit := List.drop_eq_nil_iff

/-- What repeats a diagnostic up to the limit repeats none past it. -/
theorem any_overflow_of_any_take
    (h : ((firstOccurrences events).take Collector.limit).any (·.sameDiagnostic e) = true) :
    (overflow events).any (·.sameDiagnostic e) = false := by
  have apart := pairwise_firstOccurrences events
  rw [← take_append_overflow, List.pairwise_append] at apart
  obtain ⟨kept, hk, same⟩ := List.any_eq_true.1 h
  rw [List.any_eq_false]
  intro late hl again
  have different := apart.2.2 kept hk late hl
  rw [sameDiagnostic_iff.2 ((sameDiagnostic_iff.1 same).trans (sameDiagnostic_iff.1 again).symm)]
    at different
  exact absurd different (by decide)

/-- The first of the events that come too late are the overflow. -/
theorem firstOccurrences_surplus (events : List Event) :
    firstOccurrences (surplus events) = overflow events := by
  have decided : ∀ a ∈ events, ∀ b ∈ events, a.sameDiagnostic b = true →
      (overflow events).any (·.sameDiagnostic a) = (overflow events).any (·.sameDiagnostic b) := by
    intro a _ b _ same
    rw [Bool.eq_iff_iff, List.any_eq_true, List.any_eq_true]
    simp only [sameDiagnostic_iff, sameDiagnostic_iff.1 same]
  have kept : ((firstOccurrences events).take Collector.limit).filter
      (fun e => (overflow events).any (·.sameDiagnostic e)) = [] := by
    rw [List.filter_eq_nil_iff]
    intro e he
    rw [any_overflow_of_any_take (List.any_eq_true.2 ⟨e, he, sameDiagnostic_iff.2 rfl⟩)]
    decide
  have late : (overflow events).filter (fun e => (overflow events).any (·.sameDiagnostic e)) =
      overflow events := by
    rw [List.filter_eq_self]
    exact fun e he => List.any_eq_true.2 ⟨e, he, sameDiagnostic_iff.2 rfl⟩
  have split := take_append_overflow events
  rw [surplus, firstOccurrences_filter decided]
  conv_lhs => rw [← split]
  rw [List.filter_append, kept, late, List.nil_append]

/-- Distinct warnings are those among the first occurrences up to the limit, and those that come too
late. -/
theorem distinct_warnings (h : Leveled events) :
    distinct (events.filter (·.isWarning)) =
      ((firstOccurrences events).take Collector.limit).countP (·.isWarning) +
        distinct ((surplus events).filter (·.isWarning)) := by
  have late : Leveled (surplus events) := fun a ha b hb =>
    h a (List.mem_filter.1 ha).1 b (List.mem_filter.1 hb).1
  rw [← length_firstOccurrences, ← length_firstOccurrences, firstOccurrences_filter h,
    firstOccurrences_filter late, firstOccurrences_surplus, List.countP_eq_length_filter,
    ← List.length_append, ← List.filter_append, take_append_overflow]

/-- One more event comes too late if it repeats no diagnostic up to the limit, and the limit has been
reached. -/
theorem surplus_concat (events : List Event) (e : Event) :
    surplus (events ++ [e]) =
      surplus events ++
        if ((firstOccurrences events).take Collector.limit).any (·.sameDiagnostic e) = false ∧
          Collector.limit ≤ (firstOccurrences events).length then [e] else [] := by
  have either := any_firstOccurrences events e
  rw [← take_append_overflow, List.any_append] at either
  rw [surplus, List.filter_append, List.filter_cons, List.filter_nil]
  cases seen : events.any (·.sameDiagnostic e) with
  | true =>
    have same : overflow (events ++ [e]) = overflow events := by
      rw [overflow, firstOccurrences_concat, seen, if_pos rfl, List.append_nil, overflow]
    rw [same, ← surplus]
    cases kept : ((firstOccurrences events).take Collector.limit).any (·.sameDiagnostic e) with
    | true => simp [any_overflow_of_any_take kept]
    | false =>
      rw [kept, Bool.false_or, seen] at either
      have full : Collector.limit ≤ (firstOccurrences events).length := by
        refine Nat.le_of_lt (Nat.lt_of_not_le fun fits => ?_)
        simp [overflow_eq_nil_iff.2 fits] at either
      rw [either, if_pos rfl, if_pos ⟨rfl, full⟩]
  | false =>
    rw [seen, Bool.or_eq_false_iff] at either
    rw [either.1]
    by_cases full : Collector.limit ≤ (firstOccurrences events).length
    · -- the new diagnostic is the last one of the overflow, and none of the earlier events reports it
      have grown : overflow (events ++ [e]) = overflow events ++ [e] := by
        rw [overflow, firstOccurrences_concat, seen, if_neg (by decide),
          List.drop_append_of_le_length full, overflow]
      have before : events.filter (fun x => (overflow (events ++ [e])).any (·.sameDiagnostic x)) =
          surplus events := by
        apply List.filter_congr
        intro x hx
        have other : e.sameDiagnostic x = false := by
          refine Bool.eq_false_iff.2 fun same => ?_
          have again := List.any_eq_false.1 seen x hx
          exact again (sameDiagnostic_iff.2 (sameDiagnostic_iff.1 same).symm)
        rw [grown, List.any_append, List.any_cons, other]
        simp
      rw [before, grown]
      simp [full, sameDiagnostic_iff]
    · have room : (firstOccurrences (events ++ [e])).length ≤ Collector.limit := by
        rw [firstOccurrences_concat, seen, if_neg (by decide), List.length_append]
        exact Nat.lt_of_not_le full
      have before : (firstOccurrences events).length ≤ Collector.limit :=
        Nat.le_of_not_le full
      simp [surplus, overflow_eq_nil_iff.2 room, overflow_eq_nil_iff.2 before, full]

/-- What comes when a collector has just been filled by different diagnostics comes too late. -/
theorem surplus_append {others : List Event}
    (different : events.Pairwise fun a b => a.sameDiagnostic b = false)
    (full : events.length = Collector.limit)
    (apart : ∀ a ∈ events, ∀ b ∈ others, a.sameDiagnostic b = false) :
    (firstOccurrences (events ++ others)).take Collector.limit = events ∧
      surplus (events ++ others) = others := by
  have first : firstOccurrences (events ++ others) = events ++ firstOccurrences others := by
    rw [firstOccurrences_append apart, firstOccurrences_eq_self different]
  have late : overflow (events ++ others) = firstOccurrences others := by
    rw [overflow, first, ← full, List.drop_left]
  refine ⟨by rw [first, ← full, List.take_left], ?_⟩
  have early : events.filter (fun e => (firstOccurrences others).any (·.sameDiagnostic e)) = [] := by
    rw [List.filter_eq_nil_iff]
    intro e he
    rw [any_firstOccurrences, List.any_eq_true]
    rintro ⟨other, ho, same⟩
    have := apart e he other ho
    rw [sameDiagnostic_iff.2 (sameDiagnostic_iff.1 same).symm] at this
    exact absurd this (by decide)
  have all : others.filter (fun e => (firstOccurrences others).any (·.sameDiagnostic e)) = others := by
    rw [List.filter_eq_self]
    intro e he
    rw [any_firstOccurrences]
    exact List.any_eq_true.2 ⟨e, he, sameDiagnostic_iff.2 rfl⟩
  rw [surplus, late, List.filter_append, early, all, List.nil_append]

end Surplus

end Event

namespace Collector

open Event (Leveled distinct firstOccurrences surplus)

variable {c : Collector} {e : Event} {ops : List Operation} {raised : List Event}

section Counters

/-- What the counters of a collector are after some events, with their paths. -/
structure HasCounted (c : Collector) (raised : List Event) : Prop where
  warnings : c.warningCount =
    c.events.countP (·.isWarning) + (surplus raised).countP (·.isWarning)
  dropped : c.dropped = (surplus raised).length

theorem hasCounted_fresh (forwards : Bool) : (fresh forwards).HasCounted [] := ⟨rfl, rfl⟩

/-- The limit is reached by what is kept when it is reached by the first occurrences. -/
theorem HasTaken.limit_le_iff (h : c.HasTaken raised) :
    limit ≤ c.events.length ↔ limit ≤ (firstOccurrences raised).length := by
  rw [h.events, List.length_take]
  omega

theorem HasCounted.record (h : c.HasCounted raised) (taken : c.HasTaken raised) (e : Event) :
    (c.record e).1.HasCounted (raised ++ [c.tag e]) := by
  have late : c.repeats (c.tag e) = false ∧ limit ≤ c.events.length ↔
      ((firstOccurrences raised).take limit).any (·.sameDiagnostic (c.tag e)) = false ∧
        limit ≤ (firstOccurrences raised).length := by
    rw [repeats_eq, taken.limit_le_iff, taken.events]
  have level : (c.tag e).isWarning = e.isWarning := rfl
  constructor
  · rw [warningCount_record, events_record, Event.surplus_concat, List.countP_append,
      List.countP_append, h.warnings]
    simp only [← late]
    cases c.repeats (c.tag e) with
    | true => simp
    | false =>
      by_cases room : c.events.length < limit
      · simp [room, Nat.not_le.2 room, level]
        omega
      · simp [room, Nat.not_lt.1 room, level]
        omega
  · rw [dropped_record, Event.surplus_concat, List.length_append, h.dropped]
    simp only [← late]
    split <;> rfl

/-- A warning that is kept is counted once, and one that comes too late whenever it is raised. -/
theorem HasCounted.after (h : c.HasCounted raised) (taken : c.HasTaken raised)
    (ops : List Operation) : (c.after ops).HasCounted (raised ++ raisedIn c.path ops) := by
  suffices both : (c.after ops).HasTaken (raised ++ raisedIn c.path ops) ∧
      (c.after ops).HasCounted (raised ++ raisedIn c.path ops) from both.2
  refine run_induction (I := fun c raised => c.HasTaken raised ∧ c.HasCounted raised)
    ?_ ?_ ?_ ⟨taken, h⟩ ops
  · rintro c raised path ⟨taken, counted⟩
    exact ⟨⟨taken.events, taken.count, taken.full⟩, counted.warnings, counted.dropped⟩
  · rintro c raised ⟨taken, counted⟩
    exact ⟨⟨taken.events, taken.count, taken.full⟩, counted.warnings, counted.dropped⟩
  · rintro c raised e ⟨taken, counted⟩
    exact ⟨taken.record e, counted.record taken e⟩

theorem hasCounted_run (forwards : Bool) (ops : List Operation) :
    ((fresh forwards).after ops).HasCounted (raisedIn none ops) :=
  (hasCounted_fresh forwards).after (hasTaken_fresh forwards) ops

variable (counted : c.HasCounted raised) (taken : c.HasTaken raised)

include counted taken

/-- Where the diagnostic decides about the level, the counter of warnings tells whether there was one. -/
theorem HasCounted.warningCount_pos_iff (h : Leveled raised) :
    0 < c.warningCount ↔ ∃ e ∈ raised, e.isWarning = true := by
  rw [counted.warnings, taken.events, Nat.add_pos_iff_pos_or_pos, List.countP_pos_iff,
    List.countP_pos_iff]
  constructor
  · rintro (⟨e, he, warning⟩ | ⟨e, he, warning⟩)
    · exact ⟨e, Event.mem_of_mem_firstOccurrences (List.mem_of_mem_take he), warning⟩
    · exact ⟨e, (List.mem_filter.1 he).1, warning⟩
  · rintro ⟨e, he, warning⟩
    obtain ⟨first, hf, same⟩ := Event.exists_mem_firstOccurrences he
    have same := Event.sameDiagnostic_iff.2 same
    rw [← Event.take_append_overflow, List.mem_append] at hf
    rcases hf with hf | hf
    · have raisedFirst := Event.mem_of_mem_firstOccurrences (List.mem_of_mem_take hf)
      exact .inl ⟨first, hf, (h first raisedFirst e he same).trans warning⟩
    · exact .inr ⟨e, List.mem_filter.2 ⟨he, List.any_eq_true.2 ⟨first, hf, same⟩⟩, warning⟩

/-- The counter of warnings exceeds the number of distinct warnings by the repetitions among those that
come too late. -/
theorem HasCounted.warningCount_add_distinct (h : Leveled raised) :
    c.warningCount + distinct ((surplus raised).filter (·.isWarning)) =
      distinct (raised.filter (·.isWarning)) + ((surplus raised).filter (·.isWarning)).length := by
  rw [counted.warnings, taken.events, Event.distinct_warnings h, List.countP_eq_length_filter,
    List.countP_eq_length_filter, Nat.add_right_comm]

/-- The counter of warnings is the number of distinct warnings, unless one that comes too late comes
again. -/
theorem HasCounted.warningCount_eq_distinct_iff (h : Leveled raised) :
    distinct (raised.filter (·.isWarning)) ≤ c.warningCount ∧
      (c.warningCount = distinct (raised.filter (·.isWarning)) ↔
        ((surplus raised).filter (·.isWarning)).Pairwise fun a b => a.sameDiagnostic b = false) := by
  have late := (Event.firstOccurrences_sublist ((surplus raised).filter (·.isWarning))).length_le
  have total := counted.warningCount_add_distinct taken h
  rw [← Event.length_firstOccurrences_eq_iff]
  rw [Event.length_firstOccurrences] at late ⊢
  omega

end Counters

section Reports

theorem hasWarnings_iff : c.hasWarnings = true ↔ ∃ e ∈ c.events, e.isWarning = true := by
  simp [hasWarnings, warnings]

/-- The report in text is empty exactly if neither a warning nor an error is kept. -/
theorem report_eq_empty_iff :
    c.report = "" ↔ ∀ e ∈ c.events, e.isWarning = false ∧ e.isError = false := by
  have total : (c.summary.hasWarnings || c.summary.hasErrors) = false ↔
      ∀ e ∈ c.events, e.isWarning = false ∧ e.isError = false := by
    simp [summary, EventSummary.hasWarnings, EventSummary.hasErrors, EventSummary.ofEvents,
      ← forall_and]
  constructor
  · intro h
    rw [← total, Bool.eq_false_iff]
    intro counts
    rw [report, if_pos counts] at h
    simp at h
  · intro h
    have paragraphs : (c.byToken.flatMap fun group =>
        (group.2.filter fun e => e.isWarning || e.isError).map (paragraph group.1)) = [] := by
      rw [List.flatMap_eq_nil_iff]
      intro group hm
      have own : (group.1, group.2) ∈ c.byToken := hm
      rw [(mem_byToken_iff.1 own).1, List.map_eq_nil_iff, List.filter_eq_nil_iff]
      intro e he
      simp [h e (List.mem_filter.1 he).1]
    have text : c.report = String.join (c.byToken.flatMap fun group =>
        (group.2.filter fun e => e.isWarning || e.isError).map (paragraph group.1)) ++ "" := by
      rw [report, total.2 h]
      rfl
    rw [text, paragraphs]
    rfl

end Reports

end Collector

end DesignTokens
