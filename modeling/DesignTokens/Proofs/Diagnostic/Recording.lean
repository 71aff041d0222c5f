import DesignTokens.Proofs.Diagnostic.Counting

/-!
# What collectors keep

A run of diagnostics is taken in one by one. What is kept comes from the run or was there before. While
a token is being resolved, a diagnostic without a path is taken in as the diagnostic with the path of
the token is at any other time.

The counter of warnings goes up exactly if there is a warning in a run, provided that none of the
warnings repeats what is kept already and that the code of a diagnostic decides whether it is a warning.
So it goes up past the limit, too.
-/

namespace DesignTokens

theorem Event.code_eq_of_sameDiagnostic {a b : Event} (h : a.sameDiagnostic b = true) :
    a.code = b.code := by
  simp only [sameDiagnostic, Bool.and_eq_true, beq_iff_eq] at h
  exact h.1.1.1

theorem Event.path_eq_of_sameDiagnostic {a b : Event} (h : a.sameDiagnostic b = true) :
    a.path = b.path := by
  simp only [sameDiagnostic, Bool.and_eq_true, beq_iff_eq] at h
  exact h.1.2

namespace Collector

variable {c : Collector} {e kept : Event} {events : List Event} {path : String}

/-- The collector after some diagnostics. -/
def recordAll (c : Collector) (events : List Event) : Collector :=
  events.foldl (fun c e => (c.record e).1) c

@[simp] theorem recordAll_nil (c : Collector) : c.recordAll [] = c := rfl

@[simp] theorem recordAll_cons (c : Collector) (e : Event) (events : List Event) :
    c.recordAll (e :: events) = (c.record e).1.recordAll events := rfl

@[simp] theorem recordAll_append (c : Collector) (events more : List Event) :
    c.recordAll (events ++ more) = (c.recordAll events).recordAll more := List.foldl_append

section Record

theorem leave_enter (h : c.path = none) (path : String) : (c.enter path).leave = c := by
  rw [enter, leave, ← h]

/-- An event that has a path keeps it. -/
theorem tag_eq_self (h : e.path ≠ none) : c.tag e = e := by
  obtain ⟨level, code, message, path, context⟩ := e
  cases path with
  | none => exact absurd rfl h
  | some path => rfl

theorem repeats_iff :
    c.repeats e = true ↔ ∃ kept ∈ c.events, kept.sameDiagnostic e = true := by
  rw [repeats, ← Array.any_toList, List.any_eq_true]
  rfl

/-- What keeping an event changes. -/
theorem keep_eq (c : Collector) (e : Event) :
    c.keep e =
      { c with
        kept := if c.kept.size < limit then c.kept.push e else c.kept
        dropped := c.dropped + if c.kept.size < limit then 0 else 1
        warningCount := c.warningCount + if e.isWarning then 1 else 0 } := by
  rw [keep]
  cases e.isWarning <;> by_cases h : c.kept.size < limit <;> simp [h]

/-- What taking a diagnostic in changes. -/
theorem record_eq (c : Collector) (e : Event) :
    (c.record e).1 =
      let counted : Collector :=
        { c with counts := KeyedList.insert c.counts e.code.text (c.count e.code + 1) }
      if c.repeats (c.tag e) then counted else counted.keep (c.tag e) := by
  rw [record]
  dsimp only
  exact apply_ite Prod.fst _ _ _

/-- Taking a diagnostic in does not end the resolution of a token. -/
@[simp] theorem path_record (c : Collector) (e : Event) : (c.record e).1.path = c.path := by
  simp only [record_eq, keep_eq]
  split <;> rfl

theorem mem_events_record (h : kept ∈ (c.record e).1.events) :
    kept ∈ c.events ∨ kept = c.tag e := by
  simp only [record_eq, keep_eq] at h
  split at h
  · exact .inl h
  · rw [events] at h
    dsimp only at h
    split at h
    · simpa [events] using h
    · exact .inl h

/-- A repetition repeats what was kept before, or the diagnostic that was just taken in. -/
theorem repeats_of_record {other : Event} (h : (c.record e).1.repeats other = true) :
    c.repeats other = true ∨ (c.tag e).sameDiagnostic other = true := by
  obtain ⟨kept, hk, same⟩ := repeats_iff.1 h
  rcases mem_events_record hk with hk | rfl
  · exact .inl (repeats_iff.2 ⟨kept, hk, same⟩)
  · exact .inr same

theorem warningCount_record (c : Collector) (e : Event) :
    (c.record e).1.warningCount =
      c.warningCount + if e.isWarning && !c.repeats (c.tag e) then 1 else 0 := by
  simp only [record_eq, keep_eq]
  cases c.repeats (c.tag e) <;> simp [tag, Event.isWarning]

/-- Within a token, a diagnostic without a path is the same as one with the path of the token. -/
theorem record_enter (h : e.path = none) (c : Collector) (path : String) :
    ((c.enter path).record e).1 = (c.record (e.inToken path)).1.enter path := by
  have same : (c.enter path).tag e = c.tag (e.inToken path) := by
    simp [tag, enter, Event.inToken, h]
  have seen : (c.enter path).repeats = c.repeats := rfl
  simp only [record_eq, same, seen, keep_eq]
  split <;> rfl

end Record

section Run

@[simp] theorem path_recordAll (c : Collector) (events : List Event) :
    (c.recordAll events).path = c.path := by
  induction events generalizing c with
  | nil => rfl
  | cons e events ih => rw [recordAll_cons, ih, path_record]

theorem recordAll_enter (h : ∀ e ∈ events, e.path = none) (c : Collector) (path : String) :
    (c.enter path).recordAll events = (c.recordAll (events.map (·.inToken path))).enter path := by
  induction events generalizing c with
  | nil => rfl
  | cons e events ih =>
    rw [recordAll_cons, record_enter (h e (by simp)), List.map_cons, recordAll_cons]
    exact ih (fun other ho => h other (List.mem_cons_of_mem e ho)) _

/-- What is kept was kept before, or was taken in. -/
theorem mem_events_recordAll (hp : ∀ e ∈ events, e.path ≠ none)
    (h : kept ∈ (c.recordAll events).events) : kept ∈ c.events ∨ kept ∈ events := by
  induction events generalizing c with
  | nil => exact .inl h
  | cons e events ih =>
    rcases ih (fun other ho => hp other (List.mem_cons_of_mem e ho)) h with h | h
    · rcases mem_events_record h with h | rfl
      · exact .inl h
      · rw [tag_eq_self (hp e (by simp))]
        exact .inr (by simp)
    · exact .inr (List.mem_cons_of_mem e h)

/-- The counter of warnings does not go down. -/
theorem warningCount_le_recordAll (c : Collector) (events : List Event) :
    c.warningCount ≤ (c.recordAll events).warningCount := by
  induction events generalizing c with
  | nil => exact Nat.le_refl _
  | cons e events ih =>
    calc c.warningCount
      _ ≤ (c.record e).1.warningCount := by
        rw [warningCount_record]
        exact Nat.le_add_right _ _
      _ ≤ _ := ih _

/-- The counter of warnings goes up exactly if there is a warning, if no warning repeats what is kept
and the code of a diagnostic decides whether it is one. -/
theorem warningCount_lt_recordAll_iff (hp : ∀ e ∈ events, e.path ≠ none)
    (hc : ∀ e ∈ events, ∀ other ∈ events, e.code = other.code → e.isWarning = other.isWarning)
    (hn : ∀ e ∈ events, e.isWarning = true → c.repeats e = false) :
    c.warningCount < (c.recordAll events).warningCount ↔ events.any (·.isWarning) = true := by
  induction events generalizing c with
  | nil => simp
  | cons e events ih =>
    have own : c.tag e = e := tag_eq_self (hp e (by simp))
    have step := c.warningCount_record e
    rw [own] at step
    rw [recordAll_cons, List.any_cons]
    cases hw : e.isWarning with
    | true =>
      have more := (c.record e).1.warningCount_le_recordAll events
      rw [hn e (by simp) hw, hw] at step
      simp only [Bool.not_false, Bool.and_self, ↓reduceIte] at step
      simp only [Bool.true_or, iff_true]
      omega
    | false =>
      rw [hw, Bool.false_and] at step
      have others : (c.record e).1.warningCount < ((c.record e).1.recordAll events).warningCount ↔
          events.any (·.isWarning) = true := by
        apply ih (fun e he => hp e (List.mem_cons_of_mem _ he))
          (fun e he other ho => hc e (List.mem_cons_of_mem _ he) other (List.mem_cons_of_mem _ ho))
        intro other ho warning
        apply Bool.eq_false_iff.2
        intro again
        rcases repeats_of_record again with before | same
        · simp [hn other (List.mem_cons_of_mem _ ho) warning] at before
        · -- the two would have one code, but only one of them is a warning
          rw [own] at same
          have level := hc e (by simp) other (List.mem_cons_of_mem _ ho)
            (Event.code_eq_of_sameDiagnostic same)
          rw [hw, warning] at level
          exact absurd level (by decide)
      rw [Bool.false_or, ← others, step]
      rfl

end Run

end Collector

end DesignTokens
