import DesignTokens.Text.Basic
import Mathlib.Data.List.TakeWhile

/-!
# Blanks around a text

`Padded inner text` says that a text is another one with nothing but blanks around it. Every text is
its trimmed text, padded; and what is padded twice is padded. A text is `Flush` if it does not begin
with a blank, as trimmed texts do not; padding before and behind such texts is seen.
-/

namespace DesignTokens.Text

/-- A text is another one with nothing but blanks around it. -/
def Padded (inner text : List Char) : Prop :=
  ∃ before after : List Char, text = before ++ inner ++ after ∧
    (∀ c ∈ before, isBlank c) ∧ ∀ c ∈ after, isBlank c

variable {inner middle text : List Char}

theorem Padded.refl (text : List Char) : Padded text text := ⟨[], [], by simp, by simp, by simp⟩

theorem Padded.trans (h : Padded inner middle) (h' : Padded middle text) : Padded inner text := by
  obtain ⟨before, after, rfl, hb, ha⟩ := h
  obtain ⟨before', after', rfl, hb', ha'⟩ := h'
  refine ⟨before' ++ before, after ++ after', by simp, ?_, ?_⟩
  · intro c hc
    exact (List.mem_append.1 hc).elim (hb' c) (hb c)
  · intro c hc
    exact (List.mem_append.1 hc).elim (ha c) (ha' c)

/-- Padding adds blanks only. -/
theorem Padded.mem_or_isBlank (h : Padded inner text) {c : Char} (hc : c ∈ text) :
    c ∈ inner ∨ isBlank c := by
  obtain ⟨before, after, rfl, hb, ha⟩ := h
  rcases List.mem_append.1 hc with hc | hc
  · exact (List.mem_append.1 hc).elim (fun hm => .inr (hb c hm)) .inl
  · exact .inr (ha c hc)

theorem padded_trimStart (s : List Char) : Padded (trimStart s) s := by
  refine ⟨s.takeWhile isBlank, [], ?_, List.all_eq_true.1 List.all_takeWhile, by simp⟩
  simp [trimStart]

theorem padded_trimEnd (s : List Char) : Padded (trimEnd s) s := by
  refine ⟨[], (s.reverse.takeWhile isBlank).reverse, ?_, by simp, ?_⟩
  · rw [trimEnd, List.nil_append, ← List.reverse_append, List.takeWhile_append_dropWhile,
      List.reverse_reverse]
  · intro c hc
    exact List.all_eq_true.1 List.all_takeWhile c (List.mem_reverse.1 hc)

/-- Trimming takes blanks off and nothing else. -/
theorem padded_trim (s : List Char) : Padded (trim s) s :=
  (padded_trimEnd (trimStart s)).trans (padded_trimStart s)

/-- A text is trimmed before and behind any character that is not blank. -/
theorem trim_append_cons {c : Char} (hc : isBlank c = false) (s t : List Char) :
    trim (s ++ c :: t) = trimStart s ++ c :: trimEnd t := by
  have start (s t : List Char) : trimStart (s ++ c :: t) = trimStart s ++ c :: t := by
    rw [trimStart, List.dropWhile_append]
    split
    · rename_i blank
      rw [trimStart, List.isEmpty_iff.1 blank, List.dropWhile_cons_of_neg (by simp [hc])]
      rfl
    · rfl
  have ends (s : List Char) : trimEnd (s ++ c :: t) = s ++ c :: trimEnd t := by
    have back := start t.reverse s.reverse
    rw [trimStart, trimStart] at back
    simp [trimEnd, back]
  rw [trim, start, ends]

theorem trim_eq_self {first last : Char} {middle : List Char} (hf : isBlank first = false)
    (hl : isBlank last = false) : trim (first :: middle ++ [last]) = first :: middle ++ [last] := by
  simp [trim, trimStart, trimEnd, hf, hl]

/-- The first character of a text that is not blank stays the first one when the text is trimmed. -/
theorem exists_trim_eq_cons {first : Char} {rest : List Char} (hf : isBlank first = false)
    (h : Padded (first :: rest) text) : ∃ others, trim text = first :: others := by
  obtain ⟨before, after, rfl, hb, -⟩ := h
  have hs : trimStart (before ++ first :: rest ++ after) = first :: (rest ++ after) := by
    rw [trimStart, List.append_assoc, List.dropWhile_append_of_pos hb]
    simp [hf]
  rw [trim, hs, trimEnd, List.reverse_cons, List.dropWhile_append]
  split
  · exact ⟨[], by simp [hf]⟩
  · exact ⟨_, List.reverse_append⟩

/-- Trimming takes padding off. -/
theorem trim_eq_of_padded (h : Padded inner text) : trim text = trim inner := by
  obtain ⟨before, after, rfl, hb, ha⟩ := h
  have start : trimStart (before ++ inner ++ after) = trimStart (inner ++ after) := by
    rw [trimStart, List.append_assoc, List.dropWhile_append_of_pos hb, trimStart]
  have ends (s : List Char) : trimEnd (s ++ after) = trimEnd s := by
    have ha : ∀ c ∈ after.reverse, isBlank c := fun c hc => ha c (List.mem_reverse.1 hc)
    rw [trimEnd, List.reverse_append, List.dropWhile_append_of_pos ha, trimEnd]
  rw [trim, start, trimStart, List.dropWhile_append]
  split
  · rename_i blank
    have none : after.dropWhile isBlank = [] := List.dropWhile_eq_nil_iff.2 ha
    rw [none, trim, trimStart, List.isEmpty_iff.1 blank]
  · rw [ends, trim, trimStart]

@[simp] theorem trim_trim (s : List Char) : trim (trim s) = trim s :=
  (trim_eq_of_padded (padded_trim s)).symm

/-- Nothing is left of a text exactly if it is blank. -/
theorem trim_eq_nil_iff {s : List Char} : trim s = [] ↔ ∀ c ∈ s, isBlank c := by
  constructor
  · intro h c hc
    simpa [h] using (padded_trim s).mem_or_isBlank hc
  · intro h
    have padded : Padded [] s := ⟨s, [], by simp, h, by simp⟩
    exact trim_eq_of_padded padded

/-- There is nothing to take off a text without blanks. -/
theorem trim_of_solid {s : List Char} (h : ∀ c ∈ s, isBlank c = false) : trim s = s := by
  obtain ⟨before, after, split, hb, ha⟩ := padded_trim s
  have none {t : List Char} (inside : t ⊆ s) (blank : ∀ c ∈ t, isBlank c) : t = [] := by
    refine List.eq_nil_iff_forall_not_mem.2 fun c hc => ?_
    have full := h c (inside hc)
    rw [blank c hc] at full
    cases full
  obtain rfl : before = [] := none (fun c hc => by rw [split]; simp [hc]) hb
  obtain rfl : after = [] := none (fun c hc => by rw [split]; simp [hc]) ha
  simpa using split.symm

section Flush

/-- A text that does not begin with a blank. -/
def Flush (s : List Char) : Prop := ∀ c ∈ s.head?, isBlank c = false

variable {s x y : List Char}

theorem Flush.append (h : Flush s) (hx : Flush x) : Flush (s ++ x) := by
  intro c hc
  rw [List.head?_append] at hc
  rcases Option.or_eq_some_iff.1 hc with hc | ⟨-, hc⟩
  · exact h c hc
  · exact hx c hc

/-- Blanks before a text that does not begin with one are seen. -/
theorem Flush.eq_nil_of_isBlank (h : Flush (s ++ x)) (hs : ∀ c ∈ s, isBlank c) : s = [] := by
  cases s with
  | nil => rfl
  | cons c s =>
    have blank := hs c (by simp)
    have full := h c rfl
    simp [full] at blank

theorem flush_trim (s : List Char) : Flush (trim s) := by
  intro c hc
  have start : trim s <+: trimStart s := by
    rw [← List.reverse_suffix, trim, trimEnd, List.reverse_reverse]
    exact List.dropWhile_suffix isBlank
  obtain ⟨after, ha⟩ := start
  obtain ⟨rest, hr⟩ := List.head?_eq_some_iff.1 hc
  have first := List.head?_dropWhile_not isBlank s
  rw [← trimStart, ← ha, hr] at first
  exact first

theorem trim_cons_of_isBlank {c : Char} (h : isBlank c) (s : List Char) : trim (c :: s) = trim s := by
  simp [trim, trimStart, h]

/-- What goes on without a blank behind a padded text and behind the text itself is the same only if
there is no padding. -/
theorem Padded.eq_of_append_eq (h : Padded inner text) (hi : Flush inner) (hy : Flush y)
    (e : text ++ x = inner ++ y) : text = inner ∧ x = y := by
  obtain ⟨before, after, rfl, hb, ha⟩ := h
  rw [List.append_assoc, List.append_assoc] at e
  have whole : Flush (before ++ (inner ++ (after ++ x))) := e ▸ hi.append hy
  obtain rfl := whole.eq_nil_of_isBlank hb
  have e : inner ++ (after ++ x) = inner ++ y := e
  obtain rfl := List.append_cancel_left e
  obtain rfl := hy.eq_nil_of_isBlank ha
  simp

end Flush

end DesignTokens.Text
