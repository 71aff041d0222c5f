import DesignTokens.Proofs.Diagnostic.Recording
import DesignTokens.Proofs.KeyedList
import Mathlib.Data.List.Basic
import Mathlib.Data.List.Induction

/-!
# What a run leaves in a collector

A run is any sequence of operations on a fresh collector: tokens are entered and left, and diagnostics
are recorded. Each diagnostic is raised with its own path, or else with that of the token that was
entered last and not left. Of the diagnostics raised, those are kept that no earlier one is the same as,
up to the limit.

So before the limit is reached, what repeats a kept event repeats an earlier one, and the other way
round; and from then on nothing is kept. Counters are the counts of the diagnostics raised, and those
that were no repetition when they came are the ones that were kept, dropped, or handed on.
-/

namespace DesignTokens

namespace Event

variable {a b c e : Event} {events : List Event}

/-- What two events have in common that report the same diagnostic. -/
def diagnostic (e : Event) : Code × String × Option String × KeyedList String :=
  (e.code, e.message, e.path, e.context)

theorem sameDiagnostic_iff : a.sameDiagnostic b = true ↔ a.diagnostic = b.diagnostic := by
  simp [sameDiagnostic, diagnostic, and_assoc]

/-- The events that no earlier one reports the same diagnostic as, in order. -/
def firstOccurrences (events : List Event) : List Event :=
  events.zipIdx.filterMap fun (e, i) =>
    if (events.take i).any (·.sameDiagnostic e) then none else some e

/-- One more event is a first occurrence unless an earlier one reports the same. -/
theorem firstOccurrences_concat (events : List Event) (e : Event) :
    firstOccurrences (events ++ [e]) =
      firstOccurrences events ++ if events.any (·.sameDiagnostic e) then [] else [e] := by
  rw [firstOccurrences, List.zipIdx_append, List.filterMap_append, firstOccurrences]
  congr 1
  · apply List.filterMap_congr
    rintro ⟨x, i⟩ hm
    have before : (events ++ [e]).take i = events.take i :=
      List.take_append_of_le_length (Nat.le_of_lt (by simpa using List.snd_lt_of_mem_zipIdx hm))
    dsimp only
    rw [before]
  · by_cases again : events.any (·.sameDiagnostic e) = true <;> simp_all

theorem mem_of_mem_firstOccurrences (h : e ∈ firstOccurrences events) : e ∈ events := by
  obtain ⟨⟨x, i⟩, hm, he⟩ := List.mem_filterMap.1 h
  dsimp only at he
  split at he
  · simp at he
  · obtain rfl : x = e := by simpa using he
    exact List.fst_mem_of_mem_zipIdx hm

/-- Every event reports the same diagnostic as a first occurrence. -/
theorem exists_mem_firstOccurrences (h : e ∈ events) :
    ∃ first ∈ firstOccurrences events, first.diagnostic = e.diagnostic := by
  induction events using List.reverseRecOn generalizing e with
  | nil => simp at h
  | append_singleton events last ih =>
    rw [firstOccurrences_concat]
    rcases List.mem_append.1 h with h | h
    · obtain ⟨first, hf, same⟩ := ih h
      exact ⟨first, List.mem_append_left _ hf, same⟩
    · obtain rfl := List.mem_singleton.1 h
      by_cases again : events.any (·.sameDiagnostic e) = true
      · obtain ⟨earlier, he, same⟩ := List.any_eq_true.1 again
        obtain ⟨first, hf, first_same⟩ := ih he
        exact ⟨first, List.mem_append_left _ hf, first_same.trans (sameDiagnostic_iff.1 same)⟩
      · exact ⟨e, by simp [again], rfl⟩

/-- An event repeats one of those raised exactly if it repeats a first occurrence. -/
theorem any_firstOccurrences (events : List Event) (e : Event) :
    (firstOccurrences events).any (·.sameDiagnostic e) = events.any (·.sameDiagnostic e) := by
  rw [Bool.eq_iff_iff, List.any_eq_true, List.any_eq_true]
  constructor
  · rintro ⟨first, hf, same⟩
    exact ⟨first, mem_of_mem_firstOccurrences hf, same⟩
  · rintro ⟨x, hx, same⟩
    obtain ⟨first, hf, hd⟩ := exists_mem_firstOccurrences hx
    exact ⟨first, hf, sameDiagnostic_iff.2 (hd.trans (sameDiagnostic_iff.1 same))⟩

/-- No two first occurrences report the same diagnostic. -/
theorem pairwise_firstOccurrences (events : List Event) :
    (firstOccurrences events).Pairwise fun a b => a.sameDiagnostic b = false := by
  induction events using List.reverseRecOn with
  | nil => exact .nil
  | append_singleton events last ih =>
    rw [firstOccurrences_concat, List.pairwise_append]
    refine ⟨ih, by split <;> simp, ?_⟩
    intro a ha b hb
    split at hb
    · simp at hb
    · rename_i fresh
      obtain rfl := List.mem_singleton.1 hb
      simp only [List.any_eq_true, not_exists, not_and, Bool.not_eq_true] at fresh
      exact fresh a (mem_of_mem_firstOccurrences ha)

end Event

namespace Collector

/-- An operation on a collector. -/
inductive Operation where
  | enter (path : String)
  | leave
  | record (event : Event)
  deriving DecidableEq, Repr

namespace Operation

/-- The step that a collector takes in with an operation. -/
def step : Operation → Step
  | .enter path => .entered path
  | .leave => .left
  | .record event => .raised event

end Operation

variable {c : Collector} {e : Event} {ops : List Operation} {raised : List Event}

/-- A fresh collector, which may hand its diagnostics on to the log. -/
def fresh (forwards : Bool) : Collector := { silent with forwards := forwards }

/-- The collector after some operations. -/
def after (c : Collector) (ops : List Operation) : Collector :=
  ops.foldl (fun c op => (c.observe op.step).1) c

/-- The events that a collector hands on in the course of some operations. -/
def handed (c : Collector) : List Operation → List Event
  | [] => []
  | op :: ops => (c.observe op.step).2.toList ++ handed (c.observe op.step).1 ops

/-- The events recorded in the course of some operations, each with the collector that takes it in. -/
def moments (c : Collector) : List Operation → List (Collector × Event)
  | [] => []
  | .record e :: ops => (c, c.tag e) :: moments (c.record e).1 ops
  | op :: ops => moments (c.observe op.step).1 ops

/-- The events raised by some operations, each with its own path or else the path of the token that
was entered last, if it was not left. -/
def raisedIn (path : Option String) : List Operation → List Event
  | [] => []
  | .enter path :: ops => raisedIn (some path) ops
  | .leave :: ops => raisedIn none ops
  | .record e :: ops => { e with path := e.path <|> path } :: raisedIn path ops

/-- The events that repeat none of those kept when they come. -/
def novel (c : Collector) (ops : List Operation) : List Event :=
  ((c.moments ops).filter fun (c, e) => !c.events.any (·.sameDiagnostic e)).map Prod.snd

@[simp] theorem after_nil (c : Collector) : c.after [] = c := rfl

@[simp] theorem after_cons (c : Collector) (op : Operation) (ops : List Operation) :
    c.after (op :: ops) = (c.observe op.step).1.after ops := rfl

section Record

theorem length_events (c : Collector) : c.events.length = c.kept.size := Array.length_toList

theorem repeats_eq (c : Collector) (e : Event) :
    c.repeats e = c.events.any (·.sameDiagnostic e) := by
  rw [repeats, ← Array.any_toList, events]

/-- A diagnostic is kept if it repeats none and there is room for it. -/
theorem events_record (c : Collector) (e : Event) :
    (c.record e).1.events =
      c.events ++
        if c.repeats (c.tag e) = false ∧ c.events.length < limit then [c.tag e] else [] := by
  rw [length_events, record_eq]
  cases c.repeats (c.tag e) with
  | true => simp [events]
  | false =>
    by_cases room : c.kept.size < limit <;> simp [keep_eq, events, room]

/-- A diagnostic is dropped if it repeats none and there is no room for it. -/
theorem dropped_record (c : Collector) (e : Event) :
    (c.record e).1.dropped =
      c.dropped + if c.repeats (c.tag e) = false ∧ limit ≤ c.events.length then 1 else 0 := by
  rw [length_events, record_eq]
  cases c.repeats (c.tag e) with
  | true => simp
  | false =>
    by_cases room : c.kept.size < limit <;> simp [keep_eq, room, Nat.not_le.2, Nat.not_lt.1]

@[simp] theorem forwards_record (c : Collector) (e : Event) :
    (c.record e).1.forwards = c.forwards := by
  simp only [record_eq, keep_eq]
  split <;> rfl

/-- A diagnostic is handed on if it repeats none. -/
theorem handed_record (c : Collector) (e : Event) :
    (c.record e).2.toList =
      if c.forwards = true ∧ c.repeats (c.tag e) = false then [c.tag e] else [] := by
  cases seen : c.repeats (c.tag e) <;> cases handing : c.forwards <;> simp [record, seen, handing]

end Record

section Invariant

/-- A collector that some events, with their paths, have been recorded in. -/
structure HasTaken (c : Collector) (raised : List Event) : Prop where
  events : c.events = (Event.firstOccurrences raised).take limit
  count : ∀ code, c.count code = raised.countP (·.code == code)
  full : 0 < c.dropped → c.events.length = limit

theorem hasTaken_fresh (forwards : Bool) : (fresh forwards).HasTaken [] := by
  refine ⟨?_, fun code => rfl, ?_⟩
  · simp [fresh, silent, events, Event.firstOccurrences]
  · simp [fresh, silent]

theorem HasTaken.record (h : c.HasTaken raised) (e : Event) :
    (c.record e).1.HasTaken (raised ++ [c.tag e]) := by
  have atMost : c.events.length ≤ limit := by
    rw [h.events]
    exact List.length_take_le _ _
  refine ⟨?_, ?_, ?_⟩
  · rw [events_record, repeats_eq, h.events, Event.firstOccurrences_concat]
    by_cases room : (Event.firstOccurrences raised).length < limit
    · -- so far every first occurrence is kept
      rw [List.take_of_length_le (Nat.le_of_lt room), Event.any_firstOccurrences]
      have fits : (Event.firstOccurrences raised ++ [c.tag e]).length ≤ limit := by
        rw [List.length_append]
        exact room
      cases raised.any (·.sameDiagnostic (c.tag e)) with
      | true => simp [List.take_of_length_le (Nat.le_of_lt room)]
      | false => simp [room, List.take_of_length_le fits]
    · rw [List.take_append_of_le_length (Nat.not_lt.1 room), List.length_take_of_le (Nat.not_lt.1 room)]
      simp
  · intro code
    rw [count_record, h.count, List.countP_append]
    rfl
  · intro dropped
    have reached : c.events.length = limit := by
      by_cases before : 0 < c.dropped
      · exact h.full before
      · rw [dropped_record] at dropped
        split at dropped
        · rename_i past
          exact Nat.le_antisymm atMost past.2
        · omega
    rw [events_record, if_neg (by simp [reached]), List.append_nil, reached]

/-- What every operation keeps of a collector and the events raised so far holds after a run. -/
theorem run_induction {I : Collector → List Event → Prop}
    (enter : ∀ c raised path, I c raised → I (c.enter path) raised)
    (leave : ∀ c raised, I c raised → I c.leave raised)
    (record : ∀ c raised e, I c raised → I (c.record e).1 (raised ++ [c.tag e]))
    (h : I c raised) (ops : List Operation) : I (c.after ops) (raised ++ raisedIn c.path ops) := by
  induction ops generalizing c raised with
  | nil => simpa [raisedIn] using h
  | cons op ops ih =>
    cases op with
    | enter path => exact ih (enter c raised path h)
    | leave => exact ih (leave c raised h)
    | record e =>
      have rest := ih (record c raised e h)
      rw [path_record, List.append_assoc] at rest
      exact rest

theorem HasTaken.after (h : c.HasTaken raised) (ops : List Operation) :
    (c.after ops).HasTaken (raised ++ raisedIn c.path ops) :=
  run_induction (fun _ _ _ h => ⟨h.events, h.count, h.full⟩)
    (fun _ _ h => ⟨h.events, h.count, h.full⟩) (fun _ _ e h => h.record e) h ops

theorem hasTaken_run (forwards : Bool) (ops : List Operation) :
    ((fresh forwards).after ops).HasTaken (raisedIn none ops) :=
  (hasTaken_fresh forwards).after ops

end Invariant

section Novel

/-- Every diagnostic raised is taken in, with its path. -/
theorem map_snd_moments (c : Collector) (ops : List Operation) :
    (c.moments ops).map Prod.snd = raisedIn c.path ops := by
  induction ops generalizing c with
  | nil => rfl
  | cons op ops ih =>
    cases op with
    | enter path => exact ih (c.enter path)
    | leave => exact ih c.leave
    | record e =>
      rw [moments, raisedIn, List.map_cons, ih, path_record]
      rfl

theorem novel_record (c : Collector) (e : Event) (ops : List Operation) :
    c.novel (.record e :: ops) =
      (if c.repeats (c.tag e) = false then [c.tag e] else []) ++ (c.record e).1.novel ops := by
  cases seen : c.repeats (c.tag e) <;>
    simp [novel, moments, (repeats_eq c (c.tag e)).symm.trans seen]

/-- The diagnostics that are no repetition are kept or dropped. -/
theorem length_novel (c : Collector) (ops : List Operation) :
    (c.after ops).events.length + (c.after ops).dropped =
      c.events.length + c.dropped + (c.novel ops).length := by
  induction ops generalizing c with
  | nil => rfl
  | cons op ops ih =>
    cases op with
    | enter path => exact ih (c.enter path)
    | leave => exact ih c.leave
    | record e =>
      have rest : ((c.record e).1.after ops).events.length + ((c.record e).1.after ops).dropped = _ :=
        ih (c.record e).1
      rw [events_record, dropped_record, List.length_append] at rest
      rw [novel_record, List.length_append]
      refine rest.trans ?_
      cases c.repeats (c.tag e) with
      | true => simp
      | false =>
        by_cases room : c.events.length < limit
        · simp [room, Nat.not_le.2 room]
          omega
        · simp [room, Nat.not_lt.1 room]
          omega

/-- The diagnostics that are no repetition are those that are handed on. -/
theorem handed_eq (c : Collector) (ops : List Operation) :
    c.handed ops = if c.forwards then c.novel ops else [] := by
  induction ops generalizing c with
  | nil => cases c.forwards <;> rfl
  | cons op ops ih =>
    cases op with
    | enter path => exact ih (c.enter path)
    | leave => exact ih c.leave
    | record e =>
      have rest := ih (c.record e).1
      rw [forwards_record] at rest
      have first := c.handed_record e
      change (c.record e).2.toList ++ (c.record e).1.handed ops = _
      rw [first, rest, novel_record]
      cases c.forwards <;> simp

end Novel

section Groups

/-- The paths that events are grouped by are those of the events kept. -/
theorem mem_keys_groups {path : String} :
    path ∈ KeyedList.keys (KeyedList.ofList (c.events.map fun e => (group e, ()))) ↔
      ∃ e ∈ c.events, group e = path := by
  rw [KeyedList.mem_keys_ofList, List.map_map, List.mem_map]
  rfl

/-- A group is what is kept under a path, in order, for every path that there is. -/
theorem mem_byToken_iff {path : String} {events : List Event} :
    (path, events) ∈ c.byToken ↔
      events = c.events.filter (fun e => group e == path) ∧ events ≠ [] := by
  have occurs : path ∈ KeyedList.keys (KeyedList.ofList (c.events.map fun e => (group e, ()))) ↔
      c.events.filter (fun e => group e == path) ≠ [] := by
    rw [mem_keys_groups, Ne, List.filter_eq_nil_iff]
    simp
  constructor
  · intro h
    obtain ⟨⟨key, _⟩, hk, he⟩ := List.mem_map.1 h
    obtain ⟨rfl, rfl⟩ := by simpa using he
    exact ⟨rfl, occurs.1 (List.mem_map.2 ⟨_, hk, rfl⟩)⟩
  · rintro ⟨rfl, some⟩
    obtain ⟨⟨key, _⟩, hk, rfl⟩ := List.mem_map.1 (occurs.2 some)
    exact List.mem_map.2 ⟨_, hk, rfl⟩

theorem sorted_byToken (c : Collector) : KeyedList.Sorted c.byToken := by
  have paths := KeyedList.sorted_ofList (c.events.map fun e => (group e, ()))
  rw [byToken, KeyedList.Sorted, List.map_map]
  exact paths

/-- No event is in two groups, and none is in no group. -/
theorem existsUnique_mem_byToken (h : e ∈ c.events) :
    ∃! entry, entry ∈ c.byToken ∧ e ∈ entry.2 := by
  have own : e ∈ c.events.filter fun other => group other == group e := by simp [h]
  refine ⟨(group e, c.events.filter fun other => group other == group e), ⟨?_, own⟩, ?_⟩
  · exact mem_byToken_iff.2 ⟨rfl, List.ne_nil_of_mem own⟩
  · rintro ⟨path, events⟩ ⟨hm, he⟩
    obtain ⟨rfl, -⟩ := mem_byToken_iff.1 hm
    obtain rfl : group e = path := by simpa using (List.mem_filter.1 he).2
    rfl

end Groups

/-- After any run of a fresh collector:
- what is kept are the first occurrences of the diagnostics raised, in order and up to the limit, so
  that no two of them report the same;
- each code is counted as often as it was raised;
- what was kept and what was dropped makes up the diagnostics that were no repetition of an event kept
  at the moment they were taken in, and those were handed on, if the collector does so;
- nothing was dropped before the limit was reached;
- the groups by token are what is kept under each path, in order, and every event is in one of them. -/
theorem run_keeps_first_occurrences (forwards : Bool) (ops : List Operation) :
    let c := (fresh forwards).after ops
    let raised := raisedIn none ops
    let novel := (fresh forwards).novel ops
    (c.events = (Event.firstOccurrences raised).take limit ∧
      c.events.Pairwise fun a b => a.sameDiagnostic b = false) ∧
    (∀ code, c.count code = raised.countP (·.code == code)) ∧
    (((fresh forwards).moments ops).map Prod.snd = raised ∧
      c.events.length + c.dropped = novel.length ∧
      (fresh forwards).handed ops = if forwards then novel else []) ∧
    (0 < c.dropped → c.events.length = limit) ∧
    KeyedList.Sorted c.byToken ∧
      (∀ path events, (path, events) ∈ c.byToken ↔
        events = c.events.filter (fun e => group e == path) ∧ events ≠ []) ∧
      ∀ e ∈ c.events, ∃! entry, entry ∈ c.byToken ∧ e ∈ entry.2 := by
  intro c raised novel
  have taken : c.HasTaken raised := (hasTaken_fresh forwards).after ops
  refine ⟨⟨taken.events, ?_⟩, taken.count, ⟨map_snd_moments _ ops, ?_, handed_eq _ ops⟩, taken.full,
    sorted_byToken c, fun path events => mem_byToken_iff, fun e => existsUnique_mem_byToken⟩
  · rw [taken.events]
    exact (Event.pairwise_firstOccurrences raised).sublist (List.take_sublist _ _)
  · have accounted := length_novel (fresh forwards) ops
    have none : (fresh forwards).events.length + (fresh forwards).dropped = 0 := rfl
    rwa [none, Nat.zero_add] at accounted

end Collector

end DesignTokens
