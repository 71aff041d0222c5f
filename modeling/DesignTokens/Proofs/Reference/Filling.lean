import DesignTokens.Proofs.Reference.Occurrence

/-!
# Placeholders between breaks

A blank, a comma or a parenthesis stands in no placeholder. At such a character a text can be taken
apart: the placeholders before it and those behind it are all there are, and replacing the placeholders
of the text replaces those of either side. So blanks around a text stay around it.
-/

namespace DesignTokens.Reference

open Text

/-- A character that no placeholder holds. -/
def isBreak (c : Char) : Bool := c = '(' || c = ')' || c = ',' || isBlank c

variable {put : String → String} {c : Char} {s t inner text : List Char}

section Scan

theorem not_isSegmentChar_of_isBreak (h : isBreak c = true) :
    isSegmentChar c = false ∧ c ≠ '.' ∧ c ≠ '{' ∧ c ≠ '}' := by
  refine ⟨?_, ?_, ?_, ?_⟩
  · simp only [isBreak, Bool.or_eq_true, decide_eq_true_eq] at h
    rcases h with ((rfl | rfl) | rfl) | h
    · decide
    · decide
    · decide
    · simp [isSegmentChar, h]
  all_goals
    rintro rfl
    revert h
    decide

theorem closeBrace?_append_break (hc : isBreak c = true) (s t : List Char) :
    closeBrace? (s ++ c :: t) =
      (closeBrace? s).map fun (path, after) => (path, after ++ c :: t) := by
  obtain ⟨segment, dot, -, brace⟩ := not_isSegmentChar_of_isBreak hc
  induction s with
  | nil => simp [closeBrace?, segment, dot, brace]
  | cons d s ih =>
    rw [List.cons_append, closeBrace?, closeBrace?, ih]
    split
    · rfl
    · split
      · simp [Option.map_map, Function.comp_def]
      · rfl

theorem openPlaceholder?_append_break (hc : isBreak c = true) (s t : List Char) :
    openPlaceholder? (s ++ c :: t) =
      (openPlaceholder? s).map fun (path, after) => (path, after ++ c :: t) := by
  rw [openPlaceholder?, openPlaceholder?, closeBrace?_append_break hc]
  cases closeBrace? s with
  | none => rfl
  | some found =>
    obtain ⟨path, after⟩ := found
    by_cases h : isPath path = true <;> simp [h]

theorem scan_brace_of_none (h : openPlaceholder? s = none) :
    scan ('{' :: s) = .char '{' :: scan s := by
  rw [scan]
  simp only [↓reduceIte]
  split
  · rename_i found
    simp [h] at found
  · rfl

/-- At a break a text is taken apart into parts on either side. -/
theorem scan_append_break (hc : isBreak c = true) (s t : List Char) :
    scan (s ++ c :: t) = scan s ++ .char c :: scan t := by
  fun_induction scan s with
  | case1 =>
    obtain ⟨-, -, brace, -⟩ := not_isSegmentChar_of_isBreak hc
    rw [List.nil_append, scan, if_neg brace]
    rfl
  | case2 rest path after h ih =>
    rw [eq_of_openPlaceholder? h, List.cons_append, List.append_assoc, List.cons_append]
    exact (scan_placeholder (isPath_of_openPlaceholder? h) _).trans (congrArg _ ih)
  | case3 rest h ih =>
    have none : openPlaceholder? (rest ++ c :: t) = none := by
      rw [openPlaceholder?_append_break hc, h]
      rfl
    rw [List.cons_append, scan_brace_of_none none, ih, List.cons_append]
  | case4 d rest hd ih => rw [List.cons_append, scan, if_neg hd, ih, List.cons_append]

theorem scan_append_blanks (h : ∀ c ∈ t, isBlank c) (s : List Char) :
    scan (s ++ t) = scan s ++ t.map .char := by
  induction t generalizing s with
  | nil => simp
  | cons c t ih =>
    have hc : isBreak c = true := by simp [isBreak, h c (by simp)]
    have blanks := ih (fun d hd => h d (List.mem_cons_of_mem c hd)) []
    rw [List.nil_append, scan, List.nil_append] at blanks
    rw [scan_append_break hc, blanks, List.map_cons]

/-- The parts of a text with blanks around it are those of the text, and the blanks. -/
theorem scan_padded {before after : List Char} (hb : ∀ c ∈ before, isBlank c)
    (ha : ∀ c ∈ after, isBlank c) :
    scan (before ++ inner ++ after) = before.map .char ++ scan inner ++ after.map .char := by
  rw [scan_append_blanks ha, scan_append fun c hc => ne_brace_of_isBlank (hb c hc)]

theorem placeholder_mem_scan_padded (h : Padded inner text) {path : String} :
    .placeholder path ∈ scan text ↔ .placeholder path ∈ scan inner := by
  obtain ⟨before, after, rfl, hb, ha⟩ := h
  rw [scan_padded hb ha]
  simp

end Scan

section Fill

/-- The characters of a text with every placeholder replaced, and all else kept. -/
def fill (put : String → String) (s : List Char) : List Char := (scan s).flatMap (Part.fill put)

theorem substitute_eq_fill (put : String → String) (text : String) :
    substitute put text = String.ofList (fill put text.toList) := rfl

@[simp] theorem fill_nil (put : String → String) : fill put [] = [] := by
  rw [fill, scan, List.flatMap_nil]

theorem fill_append_break (hc : isBreak c = true) (put : String → String) (s t : List Char) :
    fill put (s ++ c :: t) = fill put s ++ c :: fill put t := by
  rw [fill, scan_append_break hc, List.flatMap_append, List.flatMap_cons]
  rfl

theorem fill_append_of_notMem (h : '{' ∉ s) (put : String → String) (t : List Char) :
    fill put (s ++ t) = s ++ fill put t := by
  rw [fill, scan_append fun c hc he => h (he ▸ hc), List.flatMap_append, flatMap_fill_char]
  rfl

/-- Blanks around a text are around it still when its placeholders are replaced. -/
theorem padded_fill (put : String → String) (h : Padded inner text) :
    Padded (fill put inner) (fill put text) := by
  obtain ⟨before, after, rfl, hb, ha⟩ := h
  refine ⟨before, after, ?_, hb, ha⟩
  rw [fill, scan_padded hb ha, List.flatMap_append, List.flatMap_append, flatMap_fill_char,
    flatMap_fill_char]
  rfl

theorem trim_fill_trim (put : String → String) (s : List Char) :
    trim (fill put (trim s)) = trim (fill put s) :=
  (trim_eq_of_padded (padded_fill put (padded_trim s))).symm

/-- What is put in for placeholders is nowhere blank, so a text is blank only if it was. -/
theorem isBlank_of_fill
    (full : ∀ path, .placeholder path ∈ scan s → ∃ c ∈ (put path).toList, isBlank c = false)
    (h : ∀ c ∈ fill put s, isBlank c) : ∀ c ∈ s, isBlank c := by
  intro c hc
  rw [← flatMap_text_scan s, List.mem_flatMap] at hc
  obtain ⟨part, hp, hc⟩ := hc
  have inside : ∀ d ∈ Part.fill put part, isBlank d := by
    intro d hd
    exact h d (List.mem_flatMap.2 ⟨part, hp, hd⟩)
  cases part with
  | char d =>
    obtain rfl : c = d := by simpa [Part.text] using hc
    exact inside c (by simp [Part.fill])
  | placeholder path =>
    obtain ⟨d, hd, blank⟩ := full path hp
    simp [inside d hd] at blank

end Fill

end DesignTokens.Reference
