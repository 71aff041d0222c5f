import DesignTokens.Proofs.Expression.Quotes
import Mathlib.Data.List.Infix

/-!
# Brackets that match

Brackets of one kind are `Balanced` in some characters if they match there, by their counts alone. A
text is well nested if no quote is left open and the parentheses outside quotes match, whatever the
braces do.

A counter of open brackets that stops at zero never has to, where they match, and comes back to where
it was. So a scan finds a well-nested text to close what it opens and nothing else. Where both kinds
match and every comma stands inside of some brackets, the scan is not aware of the text at all.
-/

namespace DesignTokens.Expression

open Text

/-- Brackets of one kind match in some characters. -/
structure Balanced (opening closing : Char) (v : List Char) : Prop where
  /-- On the way, no more of them are closed than were opened. -/
  covered : ∀ start, start <+: v → start.count closing ≤ start.count opening
  /-- At the end, as many are closed as were opened. -/
  settled : v.count closing = v.count opening

/-- Outside quotes the parentheses of a text match, and no quote is left open. -/
def WellNested (s : List Char) : Prop := ∃ v, Bare s v ∧ Balanced '(' ')' v

/-- Brackets of both kinds match in some characters, and every comma stands inside of some. -/
structure Enclosed (v : List Char) : Prop where
  parens : Balanced '(' ')' v
  braces : Balanced '{' '}' v
  commas : ∀ before after, v = before ++ ',' :: after →
    before.count ')' < before.count '(' ∨ before.count '}' < before.count '{'

section Balanced

variable {opening closing : Char} {v : List Char}

/-- Without brackets, brackets match. -/
theorem balanced_of_notMem (ho : opening ∉ v) (hc : closing ∉ v) : Balanced opening closing v := by
  constructor
  · intro start hs
    rw [List.count_eq_zero.2 fun hm => hc (hs.subset hm)]
    exact Nat.zero_le _
  · rw [List.count_eq_zero.2 ho, List.count_eq_zero.2 hc]

/-- A pair of brackets around characters that are none match. -/
theorem balanced_pair (hne : opening ≠ closing) (ho : opening ∉ v) (hc : closing ∉ v) :
    Balanced opening closing (opening :: v ++ [closing]) := by
  constructor
  · intro start hs
    cases start with
    | nil => simp
    | cons c start =>
      obtain ⟨rfl, tail⟩ := List.cons_prefix_cons.1 hs
      have closed : start.count closing ≤ (v ++ [closing]).count closing :=
        tail.sublist.count_le closing
      rw [List.count_append, List.count_eq_zero.2 hc, List.count_singleton_self] at closed
      rw [List.count_cons_of_ne hne, List.count_cons_self]
      omega
  · simp [List.count_eq_zero.2 ho, List.count_eq_zero.2 hc, hne, hne.symm]

end Balanced

section Decidable

variable {opening closing : Char} {v : List Char}

instance : Decidable (Balanced opening closing v) :=
  decidable_of_iff
    ((∀ start ∈ v.inits, start.count closing ≤ start.count opening) ∧
      v.count closing = v.count opening)
    ⟨fun h => ⟨fun start hs => h.1 start ((List.mem_inits _ _).2 hs), h.2⟩,
      fun h => ⟨fun start hs => h.covered start ((List.mem_inits _ _).1 hs), h.settled⟩⟩

theorem enclosed_iff :
    Enclosed v ↔ Balanced '(' ')' v ∧ Balanced '{' '}' v ∧
      ∀ start ∈ v.inits, start ++ [','] <+: v →
        start.count ')' < start.count '(' ∨ start.count '}' < start.count '{' := by
  constructor
  · rintro ⟨parens, braces, commas⟩
    refine ⟨parens, braces, ?_⟩
    rintro start - ⟨after, rfl⟩
    exact commas start after (by simp)
  · rintro ⟨parens, braces, commas⟩
    refine ⟨parens, braces, ?_⟩
    rintro before after rfl
    exact commas before ((List.mem_inits _ _).2 (List.prefix_append _ _)) ⟨after, by simp⟩

instance : Decidable (Enclosed v) := decidable_of_iff _ enclosed_iff.symm

end Decidable

section Counter

variable {opening closing : Char} {k : Nat} {v : List Char}

theorem count_cons_eq (a c : Char) (v : List Char) : (c :: v).count a = [c].count a + v.count a := by
  rw [← List.singleton_append, List.count_append]

/-- One bracket is counted, unless it closes what is not open. -/
theorem depth_singleton (hne : opening ≠ closing) {c : Char}
    (h : [c].count closing ≤ k + [c].count opening) :
    depth opening closing k [c] + [c].count closing = k + [c].count opening := by
  by_cases ho : c = opening
  · subst ho
    simp [depth, hne]
  · by_cases hc : c = closing
    · subst hc
      have open' : 1 ≤ k := by simpa [ho] using h
      simp [depth, ho, open']
    · simp [depth, ho, hc]

/-- The counter counts the difference of brackets, if no bracket is closed that was not opened. -/
theorem depth_add_count (hne : opening ≠ closing)
    (h : ∀ start, start <+: v → start.count closing ≤ k + start.count opening) :
    depth opening closing k v + v.count closing = k + v.count opening := by
  induction v generalizing k with
  | nil => rfl
  | cons c v ih =>
    have first := depth_singleton hne (h [c] (by simp))
    have rest := @ih (depth opening closing k [c]) ?_
    · rw [count_cons_eq closing, count_cons_eq opening]
      change depth opening closing (depth opening closing k [c]) v + _ = _
      omega
    · intro start hs
      have more := h (c :: start) (by simpa using hs)
      rw [count_cons_eq closing, count_cons_eq opening] at more
      omega

/-- No prefix closes more than it opens, so the counter never stops. -/
theorem Balanced.depth_start (h : Balanced opening closing v) (hne : opening ≠ closing)
    {start : List Char} (hs : start <+: v) (k : Nat) :
    depth opening closing k start + start.count closing = k + start.count opening := by
  apply depth_add_count hne
  intro first hf
  have := h.covered first (hf.trans hs)
  omega

theorem Balanced.depth_eq (h : Balanced opening closing v) (hne : opening ≠ closing) (k : Nat) :
    depth opening closing k v = k := by
  have whole := h.depth_start hne List.prefix_rfl k
  have := h.settled
  omega

end Counter

namespace Nesting

variable {n : Nesting} {s v : List Char}

/-- Over bare characters nothing is closed too early exactly if no prefix closes more than it opens and
was open before. -/
theorem covers_iff (hn : n.quote = none) (hv : ∀ c ∈ v, isQuote c = false) :
    n.Covers v ↔ ∀ start, start <+: v → start.count ')' ≤ n.parens + start.count '(' := by
  induction v generalizing n with
  | nil => simp [Covers, atEach_nil]
  | cons c v ih =>
    have first := feed_of_not_isQuote hn (hv c (by simp))
    have ih : (n.feed c).Covers v ↔ _ :=
      ih (by rw [first]) fun d hd => hv d (List.mem_cons_of_mem c hd)
    have counted (h : [c].count ')' ≤ n.parens + [c].count '(') :
        (n.feed c).parens + [c].count ')' = n.parens + [c].count '(' := by
      rw [first]
      exact depth_singleton (by decide) h
    rw [Covers, atEach_cons, ← Covers, ih]
    constructor
    · rintro ⟨closes, rest⟩ start hs
      have least : [c].count ')' ≤ n.parens + [c].count '(' := by
        by_cases hc : c = ')'
        · subst hc
          exact Nat.le_add_right_of_le (closes rfl hn)
        · simp [hc]
      cases start with
      | nil => simp
      | cons d start =>
        obtain ⟨rfl, tail⟩ := List.cons_prefix_cons.1 hs
        have rest := rest start tail
        have counted := counted least
        rw [count_cons_eq ')', count_cons_eq '(']
        omega
    · intro h
      refine ⟨?_, ?_⟩
      · rintro rfl -
        exact Nat.lt_of_succ_le (by simpa using h [')'] (by simp))
      · intro start hs
        have whole := h (c :: start) (by simpa using hs)
        have counted := counted (h [c] (by simp))
        rw [count_cons_eq ')', count_cons_eq '('] at whole
        omega

end Nesting

/-- A text is well nested exactly if a scan of it closes nothing that it did not open, and ends with no
parenthesis and no quote open. -/
theorem wellNested_iff {s : List Char} :
    WellNested s ↔
      Nesting.outside.Covers s ∧ (Nesting.outside.feedAll s).parens = 0 ∧
        (Nesting.outside.feedAll s).quote = none := by
  constructor
  · rintro ⟨v, bare, balanced⟩
    have covers : Nesting.outside.Covers v := by
      rw [Nesting.covers_iff rfl bare.isQuote_eq_false]
      intro start hs
      exact Nat.le_add_left_of_le (balanced.covered start hs)
    rw [bare.feedAll rfl, Nesting.feedAll_of_not_isQuote rfl bare.isQuote_eq_false]
    exact ⟨(bare.atEach rfl (by decide)).2 covers, balanced.depth_eq (by decide) 0, rfl⟩
  · rintro ⟨covers, parens, quote⟩
    obtain ⟨v, bare⟩ := exists_bare Nesting.proper_outside quote
    have bare : Bare s v := bare
    have covers : Nesting.outside.Covers v := (bare.atEach rfl (by decide)).1 covers
    rw [Nesting.covers_iff rfl bare.isQuote_eq_false] at covers
    rw [bare.feedAll rfl, Nesting.feedAll_of_not_isQuote rfl bare.isQuote_eq_false] at parens
    have counted := depth_add_count (by decide) covers
    refine ⟨v, bare, ⟨fun start hs => by simpa [Nesting.outside] using covers start hs, ?_⟩⟩
    have parens : depth '(' ')' Nesting.outside.parens v = 0 := parens
    rw [parens] at counted
    simpa [Nesting.outside] using counted

section Steady

variable {n : Nesting} {s v : List Char}

/-- A text that a scan is not aware of: the same is open after it as before, and it closes nothing that
was open before and is cut at none of its commas. -/
structure Nesting.Steady (n : Nesting) (s : List Char) : Prop where
  kept : n.feedAll s = n
  covers : n.Covers s
  solid : n.Solid s

theorem Nesting.Steady.append {t : List Char} (hs : n.Steady s) (ht : n.Steady t) :
    n.Steady (s ++ t) := by
  refine ⟨?_, Nesting.atEach_append.2 ⟨hs.covers, ?_⟩, Nesting.atEach_append.2 ⟨hs.solid, ?_⟩⟩
  · rw [Nesting.feedAll_append, hs.kept, ht.kept]
  · rw [hs.kept]
    exact ht.covers
  · rw [hs.kept]
    exact ht.solid

theorem Nesting.Steady.of_padded {inner : List Char} (h : n.Steady inner) (hn : n.Proper)
    (padded : Padded inner s) : n.Steady s :=
  ⟨(Nesting.feedAll_of_padded hn padded).trans h.kept,
    (Nesting.atEach_of_padded hn padded (by decide)).2 h.covers,
    (Nesting.atEach_of_padded hn padded (by decide)).2 h.solid⟩

/-- Without brackets and commas there is nothing to match and nothing to stand inside. -/
theorem enclosed_of_notMem (h : ∀ c ∈ ['(', ')', '{', '}', ','], c ∉ v) : Enclosed v := by
  refine ⟨balanced_of_notMem (h _ (by simp)) (h _ (by simp)),
    balanced_of_notMem (h _ (by simp)) (h _ (by simp)), ?_⟩
  rintro before after rfl
  exact absurd (by simp) (h ',' (by simp))

/-- Outside quotes, scans are not aware of matching brackets with all commas inside. -/
theorem Enclosed.steady_of_bare (h : Enclosed v) (bare : Bare s v) (hn : n.quote = none) :
    n.Steady s := by
  have scan {start : List Char} (hs : start <+: v) :
      n.feedAll start = ⟨depth '(' ')' n.parens start, depth '{' '}' n.braces start, none⟩ :=
    Nesting.feedAll_of_not_isQuote hn fun c hc => bare.isQuote_eq_false c (hs.subset hc)
  constructor
  · rw [bare.feedAll hn, scan List.prefix_rfl, h.parens.depth_eq (by decide),
      h.braces.depth_eq (by decide), ← hn]
  · refine (bare.atEach hn (by decide)).2 ?_
    rintro before after rfl -
    have counted := h.parens.depth_start (by decide) (List.prefix_append before _) n.parens
    have closed : before.count ')' + 1 ≤ before.count '(' := by
      simpa using h.parens.covered (before ++ [')']) (by simp)
    rw [scan (List.prefix_append _ _)]
    dsimp only
    omega
  · refine (bare.atEach hn (by decide)).2 ?_
    rintro before after rfl -
    have parens := h.parens.depth_start (by decide) (List.prefix_append before _) n.parens
    have braces := h.braces.depth_start (by decide) (List.prefix_append before _) n.braces
    rw [scan (List.prefix_append _ _)]
    simp only [Nesting.isOutside, Option.isNone_none, Bool.and_true, Bool.and_eq_false_iff,
      beq_eq_false_iff_ne]
    rcases h.commas before after rfl with more | more
    · exact .inl (by omega)
    · exact .inr (by omega)

/-- Without quotes in them, they go unnoticed inside quotes, too. -/
theorem Enclosed.steady (h : Enclosed s) (hs : ∀ c ∈ s, isQuote c = false) (hn : n.Proper) :
    n.Steady s := by
  cases hq : n.quote with
  | none => exact h.steady_of_bare (bare_self hs) hq
  | some q =>
    have run : q ∉ s := by
      intro hm
      simpa [hn q hq] using hs q hm
    exact ⟨Nesting.feedAll_run hq run, Nesting.atEach_run hq run, Nesting.atEach_run hq run⟩

end Steady

section Alike

open Nesting

variable {n : Nesting} {s t s' t' inner text : List Char}

/-- One text may stand in another's place: a scan that gets over the one gets over the other, and the
same is open in the end. -/
structure Nesting.Alike (n : Nesting) (s t : List Char) : Prop where
  kept : n.feedAll t = n.feedAll s
  covers : n.Covers s → n.Covers t
  solid : n.Solid s → n.Solid t

namespace Nesting.Alike

theorem refl (n : Nesting) (s : List Char) : n.Alike s s := ⟨rfl, id, id⟩

theorem of_steady (hs : n.Steady s) (ht : n.Steady t) : n.Alike s t :=
  ⟨ht.kept.trans hs.kept.symm, fun _ => ht.covers, fun _ => ht.solid⟩

theorem append (h : n.Alike s t) (h' : (n.feedAll s).Alike s' t') :
    n.Alike (s ++ s') (t ++ t') := by
  constructor
  · rw [feedAll_append, feedAll_append, h.kept, h'.kept]
  · intro covers
    obtain ⟨first, rest⟩ := atEach_append.1 covers
    refine atEach_append.2 ⟨h.covers first, ?_⟩
    rw [h.kept]
    exact h'.covers rest
  · intro solid
    obtain ⟨first, rest⟩ := atEach_append.1 solid
    refine atEach_append.2 ⟨h.solid first, ?_⟩
    rw [h.kept]
    exact h'.solid rest

/-- Blanks around a text may be there or not. -/
theorem of_padded (hn : n.Proper) (h : Padded inner text) :
    n.Alike inner text ∧ n.Alike text inner := by
  have kept := feedAll_of_padded hn h
  have covers : n.Covers text ↔ n.Covers inner := atEach_of_padded hn h (by decide)
  have solid : n.Solid text ↔ n.Solid inner := atEach_of_padded hn h (by decide)
  exact ⟨⟨kept, covers.2, solid.2⟩, ⟨kept.symm, covers.1, solid.1⟩⟩

theorem wellNested (h : outside.Alike s t) (hs : WellNested s) : WellNested t := by
  rw [wellNested_iff] at hs ⊢
  rw [h.kept]
  exact ⟨h.covers hs.1, hs.2⟩

end Nesting.Alike

end Alike

end DesignTokens.Expression
