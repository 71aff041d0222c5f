import DesignTokens.Proofs.Text.Padding
import DesignTokens.Reference.Placeholder
import Mathlib.Data.List.Basic

/-!
# Where placeholders occur

The scanner of templates finds a placeholder wherever one is written: `path ∈ find text` says that the
text of the placeholder is a part of the text, and that its path is one. No occurrence can be hidden
by another, since there is no brace inside a placeholder.

`substitute` replaces every placeholder of a text at once; what is put in is not read again.
-/

namespace DesignTokens.Reference

open Text

/-- The placeholder of a path is written somewhere in a text. -/
def Occurs (path text : String) : Prop :=
  isPath path.toList ∧
    ∃ before after, text.toList = before ++ (placeholderText path).toList ++ after

/-- The text of a part, with a text put in for a placeholder. -/
def Part.fill (put : String → String) : Part → List Char
  | .char c => [c]
  | .placeholder path => (put path).toList

/-- A text with every placeholder replaced, and all else kept. -/
def substitute (put : String → String) (text : String) : String :=
  String.ofList ((template text).flatMap (Part.fill put))

/-- The path of a part that is a placeholder. -/
def Part.path? : Part → Option String
  | .char _ => none
  | .placeholder path => some path

@[simp] theorem flatMap_fill_char (put : String → String) (s : List Char) :
    (s.map Part.char).flatMap (Part.fill put) = s := by
  simp [List.flatMap_map, Part.fill]

@[simp] theorem filterMap_path?_char (s : List Char) :
    (s.map Part.char).filterMap Part.path? = [] := by
  simp [List.filterMap_map, List.filterMap_eq_nil_iff, Part.path?]

theorem find_eq (text : String) : find text = (template text).filterMap Part.path? := rfl

theorem mem_filterMap_path? {path : String} {parts : List Part} :
    path ∈ parts.filterMap Part.path? ↔ .placeholder path ∈ parts := by
  rw [List.mem_filterMap]
  constructor
  · rintro ⟨part, hm, hp⟩
    cases part with
    | char c => simp [Part.path?] at hp
    | placeholder p =>
      obtain rfl : p = path := by simpa [Part.path?] using hp
      exact hm
  · intro hm
    exact ⟨_, hm, rfl⟩

/-- Only what is put in for the placeholders of a text matters. -/
theorem substitute_congr {put put' : String → String} {text : String}
    (h : ∀ path ∈ find text, put path = put' path) :
    substitute put text = substitute put' text := by
  apply congrArg String.ofList
  apply List.flatMap_congr
  intro part hp
  cases part with
  | char c => rfl
  | placeholder path => exact congrArg String.toList (h path (mem_filterMap_path?.2 hp))

@[simp] theorem toList_placeholderText (path : String) :
    (placeholderText path).toList = '{' :: path.toList ++ ['}'] := by
  simp [placeholderText]

section Path

theorem mem_splitAt {c d : Char} {s : List Char} (hd : d ∈ s) (hc : d ≠ c) :
    ∃ piece ∈ splitAt c s, d ∈ piece := by
  induction s with
  | nil => simp at hd
  | cons a s ih =>
    unfold splitAt
    split
    · rename_i ha
      rcases List.mem_cons.1 hd with rfl | hd
      · exact absurd ha hc
      · obtain ⟨piece, hm, hp⟩ := ih hd
        exact ⟨piece, List.mem_cons_of_mem _ hm, hp⟩
    · rcases List.mem_cons.1 hd with rfl | hd
      · split <;> simp
      · obtain ⟨piece, hm, hp⟩ := ih hd
        split
        · rename_i hs
          simp [hs] at hm
        · rename_i first others hs
          rw [hs] at hm
          rcases List.mem_cons.1 hm with rfl | hm
          · exact ⟨a :: piece, by simp, List.mem_cons_of_mem _ hp⟩
          · exact ⟨piece, List.mem_cons_of_mem _ hm, hp⟩

/-- A path is made of segment characters and dots. -/
theorem isSegmentChar_of_isPath {path : List Char} (h : isPath path) {c : Char} (hc : c ∈ path) :
    isSegmentChar c ∨ c = '.' := by
  by_cases hd : c = '.'
  · exact .inr hd
  · obtain ⟨piece, hm, hp⟩ := mem_splitAt hc hd
    have hall := List.all_eq_true.1 h piece hm
    simp only [Bool.and_eq_true, List.all_eq_true] at hall
    exact .inl (hall.2 c hp)

theorem ne_brace_of_isPath {path : List Char} (h : isPath path) {c : Char} (hc : c ∈ path) :
    c ≠ '{' ∧ c ≠ '}' := by
  rcases isSegmentChar_of_isPath h hc with hs | rfl
  · constructor
    all_goals
      rintro rfl
      simp [isSegmentChar] at hs
  · decide

theorem closeBrace?_append {path after : List Char}
    (h : ∀ c ∈ path, isSegmentChar c ∨ c = '.') (hb : ∀ c ∈ path, c ≠ '}') :
    closeBrace? (path ++ '}' :: after) = some (path, after) := by
  induction path with
  | nil => simp [closeBrace?]
  | cons c path ih =>
    have hc : (isSegmentChar c || c = '.') = true := by simpa using h c (by simp)
    have ih := ih (fun d hd => h d (by simp [hd])) fun d hd => hb d (by simp [hd])
    simp [closeBrace?, hb c (by simp), hc, ih]

/-- A placeholder is read back from behind its opening brace. -/
theorem openPlaceholder?_append {path after : List Char} (h : isPath path) :
    openPlaceholder? (path ++ '}' :: after) = some (path, after) := by
  have hc : closeBrace? (path ++ '}' :: after) = some (path, after) :=
    closeBrace?_append (fun c hc => isSegmentChar_of_isPath h hc)
      fun c hc => (ne_brace_of_isPath h hc).2
  simp [openPlaceholder?, hc, h]

theorem isPath_of_openPlaceholder? {s path after : List Char}
    (h : openPlaceholder? s = some (path, after)) : isPath path := by
  unfold openPlaceholder? at h
  split at h
  · split at h
    · rename_i hp
      obtain ⟨rfl, rfl⟩ := by simpa using h
      exact hp
    · simp at h
  · simp at h

end Path

section Scan

theorem scan_placeholder {path : List Char} (h : isPath path) (after : List Char) :
    scan ('{' :: path ++ '}' :: after) = .placeholder (String.ofList path) :: scan after := by
  rw [List.cons_append, scan]
  simp only [↓reduceIte]
  split
  · rename_i p a ho
    rw [openPlaceholder?_append h] at ho
    obtain ⟨rfl, rfl⟩ := by simpa using ho
    rfl
  · rename_i ho
    rw [openPlaceholder?_append h] at ho
    simp at ho

/-- Text without an opening brace holds no placeholder. -/
theorem scan_append {start : List Char} (h : ∀ c ∈ start, c ≠ '{') (s : List Char) :
    scan (start ++ s) = start.map .char ++ scan s := by
  induction start with
  | nil => rfl
  | cons c start ih =>
    have hc : c ≠ '{' := h c (by simp)
    rw [List.cons_append, scan]
    simp [hc, ih fun d hd => h d (by simp [hd])]

/-- A text with one placeholder in it and no other opening brace. -/
theorem scan_around {path before after : List Char} (h : isPath path)
    (hb : ∀ c ∈ before, c ≠ '{') (ha : ∀ c ∈ after, c ≠ '{') :
    scan (before ++ '{' :: path ++ '}' :: after) =
      before.map .char ++ .placeholder (String.ofList path) :: after.map .char := by
  have hrest : scan after = after.map .char := by simpa [scan] using scan_append ha []
  rw [List.append_assoc, scan_append hb, scan_placeholder h, hrest]

theorem template_placeholderText {path : String} (h : isPath path.toList) :
    template (placeholderText path) = [.placeholder path] := by
  have hs := scan_placeholder h []
  rw [template, toList_placeholderText, hs, String.ofList_toList, scan]

theorem template_of_notMem {text : String} (h : '{' ∉ text.toList) :
    template text = text.toList.map .char := by
  have hs := scan_append (fun c hc he => h (he ▸ hc)) []
  rw [template, ← List.append_nil text.toList, hs, scan]
  simp

/-- A text that is a placeholder becomes what is put in. -/
theorem substitute_placeholderText {path : String} (h : isPath path.toList)
    (put : String → String) : substitute put (placeholderText path) = put path := by
  simp [substitute, template_placeholderText h, Part.fill]

/-- A text without an opening brace stays as it is. -/
theorem substitute_of_notMem {text : String} (h : '{' ∉ text.toList) (put : String → String) :
    substitute put text = text := by
  simp [substitute, template_of_notMem h]

theorem find_placeholderText {path : String} (h : isPath path.toList) :
    find (placeholderText path) = [path] := by
  rw [find_eq, template_placeholderText h]
  rfl

theorem find_of_notMem {text : String} (h : '{' ∉ text.toList) : find text = [] := by
  rw [find_eq, template_of_notMem h, filterMap_path?_char]

section Around

variable {path before after : String}
variable (h : isPath path.toList) (hb : '{' ∉ before.toList) (ha : '{' ∉ after.toList)
include h hb ha

theorem template_around :
    template (before ++ placeholderText path ++ after) =
      before.toList.map .char ++ .placeholder path :: after.toList.map .char := by
  have hs := scan_around h (fun c hc he => hb (he ▸ hc)) fun c hc he => ha (he ▸ hc)
  rw [String.ofList_toList] at hs
  rw [template, ← hs]
  simp

theorem find_around : find (before ++ placeholderText path ++ after) = [path] := by
  rw [find_eq, template_around h hb ha, List.filterMap_append, List.filterMap_cons,
    filterMap_path?_char, filterMap_path?_char]
  rfl

theorem substitute_around (put : String → String) :
    substitute put (before ++ placeholderText path ++ after) = before ++ put path ++ after := by
  rw [substitute, template_around h hb ha, List.flatMap_append, List.flatMap_cons,
    flatMap_fill_char, flatMap_fill_char]
  simp [Part.fill, String.append_assoc]

end Around

theorem occursIn_eq_false_iff {text : String} : occursIn text = false ↔ find text = [] := by
  simp [occursIn]

/-- A text in which every placeholder is replaced by itself stays as it is. -/
theorem substitute_self (text : String) : substitute placeholderText text = text := by
  have hf : Part.fill placeholderText = fun part => part.text.toList := by
    funext part
    cases part <;> simp [Part.fill, Part.text]
  rw [substitute, hf, template, flatMap_text_scan, String.ofList_toList]

/-- A text without a placeholder stays as it is. -/
theorem substitute_of_not_occursIn {text : String} (h : occursIn text = false)
    (put : String → String) : substitute put text = text := by
  have same : substitute put text = substitute placeholderText text := by
    apply substitute_congr
    simp [occursIn_eq_false_iff.1 h]
  rw [same, substitute_self]

theorem eq_of_placeholder_mem_scan {path : String} {s : List Char}
    (h : .placeholder path ∈ scan s) :
    isPath path.toList ∧
      ∃ before after, s = before ++ (placeholderText path).toList ++ after := by
  fun_induction scan s with
  | case1 => simp at h
  | case2 rest p a ho ih =>
    have hr := eq_of_openPlaceholder? ho
    rcases List.mem_cons.1 h with he | h
    · obtain rfl : path = String.ofList p := by simpa using he
      exact ⟨by simpa using isPath_of_openPlaceholder? ho, [], a, by simp [hr]⟩
    · obtain ⟨hp, before, after, hs⟩ := ih h
      exact ⟨hp, '{' :: p ++ '}' :: before, after, by simp [hr, hs]⟩
  | case3 rest _ ih =>
    obtain ⟨hp, before, after, hs⟩ := ih (by simpa using h)
    exact ⟨hp, '{' :: before, after, by simp [hs]⟩
  | case4 c rest _ ih =>
    obtain ⟨hp, before, after, hs⟩ := ih (by simpa using h)
    exact ⟨hp, c :: before, after, by simp [hs]⟩

/-- A text that does not hold `c` cannot reach over the first `c`. -/
theorem eq_append_of_append_eq {start rest before after : List Char} {c : Char}
    (hc : c ∉ start) (h : start ++ rest = before ++ c :: after) :
    ∃ more, before = start ++ more ∧ rest = more ++ c :: after := by
  rcases List.append_eq_append_iff.1 h with ⟨more, hb, hr⟩ | ⟨more, hs, hr⟩
  · exact ⟨more, hb, hr⟩
  · cases more with
    | nil => exact ⟨[], by simpa using hs.symm, by simpa using hr.symm⟩
    | cons d more =>
      obtain ⟨rfl, -⟩ := by simpa using hr
      exact absurd (by simp [hs]) hc

theorem placeholder_mem_scan {path : List Char} (hp : isPath path) {s before after : List Char}
    (h : s = before ++ '{' :: path ++ '}' :: after) :
    .placeholder (String.ofList path) ∈ scan s := by
  fun_induction scan s generalizing before with
  | case1 => simp at h
  | case2 rest p a ho ih =>
    cases before with
    | nil =>
      have hr : rest = path ++ '}' :: after := by simpa using h
      rw [hr, openPlaceholder?_append hp] at ho
      obtain ⟨rfl, rfl⟩ := by simpa using ho
      simp
    | cons b before =>
      -- the placeholder read first has no opening brace inside, so the other one starts behind it
      have hr : p ++ ['}'] ++ a = before ++ '{' :: (path ++ '}' :: after) := by
        rw [List.append_assoc, List.singleton_append, ← eq_of_openPlaceholder? ho]
        simpa using (List.cons.inj h).2
      have hn : '{' ∉ p ++ ['}'] := by
        simp only [List.mem_append, List.mem_singleton, not_or]
        exact ⟨fun hm => (ne_brace_of_isPath (isPath_of_openPlaceholder? ho) hm).1 rfl, by decide⟩
      obtain ⟨more, -, ha⟩ := eq_append_of_append_eq hn hr
      exact List.mem_cons_of_mem _ (@ih more (by simpa using ha))
  | case3 rest ho ih =>
    cases before with
    | nil =>
      have hr : rest = path ++ '}' :: after := by simpa using h
      rw [hr, openPlaceholder?_append hp] at ho
      simp at ho
    | cons b before =>
      exact List.mem_cons_of_mem _ (@ih before (by simpa using (List.cons.inj h).2))
  | case4 c rest hc ih =>
    cases before with
    | nil => exact absurd (List.cons.inj h).1 hc
    | cons b before =>
      exact List.mem_cons_of_mem _ (@ih before (by simpa using (List.cons.inj h).2))

end Scan

/-- The scanner finds exactly the paths whose placeholders occur. -/
theorem mem_find_iff {path text : String} : path ∈ find text ↔ Occurs path text := by
  rw [find_eq, mem_filterMap_path?]
  constructor
  · exact eq_of_placeholder_mem_scan
  · rintro ⟨hp, before, after, hs⟩
    have hs : text.toList = before ++ '{' :: path.toList ++ '}' :: after := by simpa using hs
    simpa [template] using placeholder_mem_scan hp hs

theorem occursIn_iff {text : String} : occursIn text = true ↔ ∃ path, Occurs path text := by
  simp only [← mem_find_iff, occursIn, Bool.not_eq_true', List.isEmpty_eq_false_iff_exists_mem]

/-- A placeholder in what is put in for a placeholder is one of the whole text. -/
theorem occursIn_substitute {put : String → String} {path text : String} (hp : path ∈ find text)
    (h : occursIn (put path) = true) : occursIn (substitute put text) = true := by
  obtain ⟨other, ho, before, after, hs⟩ := occursIn_iff.1 h
  obtain ⟨first, last, ht⟩ := List.append_of_mem (mem_filterMap_path?.1 hp)
  refine occursIn_iff.2 ⟨other, ho, first.flatMap (Part.fill put) ++ before,
    after ++ last.flatMap (Part.fill put), ?_⟩
  simp [substitute, ht, Part.fill, hs]

section Single

theorem ne_brace_of_isBlank {c : Char} (h : isBlank c) : c ≠ '{' := by
  rintro rfl
  revert h
  decide

theorem single?_placeholderText {path : String} (h : isPath path.toList) :
    single? (placeholderText path) = some path := by
  have hs := scan_placeholder h []
  rw [single?, toList_placeholderText, trim_eq_self (by decide) (by decide), hs,
    String.ofList_toList, scan]

/-- A text that is one placeholder has nothing but blanks around it. -/
theorem template_of_single? {text path : String} (h : single? text = some path) :
    ∃ before after : List Char,
      template text = before.map .char ++ .placeholder path :: after.map .char ∧
        (∀ c ∈ before, isBlank c) ∧ ∀ c ∈ after, isBlank c := by
  unfold single? at h
  split at h
  · rename_i p hs
    obtain rfl : p = path := by simpa using h
    have hm : .placeholder p ∈ scan (trim text.toList) := by simp [hs]
    obtain ⟨hp, -⟩ := eq_of_placeholder_mem_scan hm
    have htrim : trim text.toList = '{' :: p.toList ++ ['}'] := by
      simpa [hs, Part.text] using (flatMap_text_scan (trim text.toList)).symm
    obtain ⟨before, after, ht, hb, ha⟩ := padded_trim text.toList
    refine ⟨before, after, ?_, hb, ha⟩
    have blanks := scan_around hp (fun c hc => ne_brace_of_isBlank (hb c hc))
      fun c hc => ne_brace_of_isBlank (ha c hc)
    rw [String.ofList_toList] at blanks
    rw [template, ht, htrim, ← blanks]
    simp
  · simp at h

/-- A text that is one placeholder holds no other one. -/
theorem find_eq_of_single? {text path : String} (h : single? text = some path) :
    find text = [path] := by
  obtain ⟨before, after, ht, -, -⟩ := template_of_single? h
  rw [find_eq, ht, List.filterMap_append, List.filterMap_cons, filterMap_path?_char,
    filterMap_path?_char]
  rfl

theorem mem_find_of_single? {text path : String} (h : single? text = some path) :
    path ∈ find text := by
  simp [find_eq_of_single? h]

theorem single?_of_not_occursIn {text : String} (h : occursIn text = false) :
    single? text = none := by
  cases hs : single? text with
  | none => rfl
  | some path => simp [occursIn, find_eq_of_single? hs] at h

/-- What is put in for a text that is one placeholder has the blanks of the text around it. -/
theorem padded_substitute_of_single? {text path : String} (h : single? text = some path)
    (put : String → String) : Padded (put path).toList (substitute put text).toList := by
  obtain ⟨before, after, ht, hb, ha⟩ := template_of_single? h
  refine ⟨before, after, ?_, hb, ha⟩
  rw [substitute, ht, List.flatMap_append, List.flatMap_cons, flatMap_fill_char,
    flatMap_fill_char]
  simp [Part.fill]

end Single

end DesignTokens.Reference
