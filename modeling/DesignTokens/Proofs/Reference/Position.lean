import DesignTokens.Expression.ObjectLiteral
import DesignTokens.Proofs.Reference.Occurrence
import DesignTokens.Proofs.Text.Ends
import DesignTokens.Proofs.Text.Pieces
import Mathlib.Data.List.Pairwise

/-!
# The positions of placeholders

A placeholder stands at a position of a text if the text goes on there with a well-formed path between
braces. The scanner, which tries a placeholder at each opening brace and goes on behind the one it has
found, reports all of these positions from left to right. Nothing is hidden by what was read before,
since two placeholders never overlap.
-/

namespace DesignTokens.Reference

open Text

section WellFormed

/-- A segment of a path: a text with none of the characters that have a meaning around paths. -/
structure IsSegment (s : List Char) : Prop where
  filled : s ≠ []
  plain : ∀ c ∈ s, c ∉ ['{', '}', '(', ')', ',', ':', '.'] ∧ isBlank c = false

/-- A path: one or more segments, joined by single dots. -/
def WellFormed (path : List Char) : Prop :=
  ∃ segments, segments ≠ [] ∧ path = ['.'].intercalate segments ∧ ∀ s ∈ segments, IsSegment s

theorem isSegmentChar_iff {c : Char} : isSegmentChar c = true ↔
    c ∉ ['{', '}', '(', ')', ',', ':', '.'] ∧ isBlank c = false := by
  simp [isSegmentChar, and_assoc]

theorem isSegment_iff {s : List Char} :
    IsSegment s ↔ (!s.isEmpty && s.all isSegmentChar) = true := by
  simp only [Bool.and_eq_true, Bool.not_eq_true', List.isEmpty_eq_false_iff, List.all_eq_true,
    isSegmentChar_iff]
  exact ⟨fun h => ⟨h.filled, h.plain⟩, fun h => ⟨h.1, h.2⟩⟩

/-- The paths that the scanner takes are the well-formed ones. -/
theorem isPath_iff {path : List Char} : isPath path = true ↔ WellFormed path := by
  rw [isPath, List.all_eq_true]
  simp only [← isSegment_iff]
  constructor
  · intro h
    obtain ⟨first, others, pieces, joined⟩ := exists_splitAt_eq_cons '.' path
    rw [pieces] at h
    exact ⟨first :: others, by simp, by rw [intercalate_singleton_cons, joined], h⟩
  · rintro ⟨_ | ⟨first, others⟩, some, rfl, h⟩
    · exact absurd rfl some
    · have plain : ∀ s ∈ first :: others, '.' ∉ s := fun s hs dot =>
        ((h s hs).plain '.' dot).1 (by simp)
      rw [intercalate_singleton_cons, splitAt_flatMap (plain first (by simp))
        fun s hs => plain s (List.mem_cons_of_mem _ hs)]
      exact h

end WellFormed

/-- The placeholder of a path stands behind the first `n` characters of a text: there is a well-formed
path between braces and nothing else. -/
def StandsAt (n : Nat) (path : String) (s : List Char) : Prop :=
  WellFormed path.toList ∧
    ∃ before after, before.length = n ∧ s = before ++ '{' :: path.toList ++ '}' :: after

section Stands

variable {n : Nat} {path : String} {s : List Char} {c : Char}

theorem not_standsAt_nil : ¬ StandsAt n path [] := by
  rintro ⟨-, before, after, -, whole⟩
  simp at whole

/-- What stands at the start of a text is what is read behind an opening brace there. -/
theorem standsAt_zero_iff : StandsAt 0 path (c :: s) ↔
    c = '{' ∧ ∃ after, openPlaceholder? s = some (path.toList, after) := by
  constructor
  · rintro ⟨formed, before, after, position, whole⟩
    obtain rfl := List.length_eq_zero_iff.1 position
    obtain ⟨rfl, rfl⟩ := List.cons.inj whole
    exact ⟨rfl, after, openPlaceholder?_append (isPath_iff.2 formed)⟩
  · rintro ⟨rfl, after, read⟩
    exact ⟨isPath_iff.1 (isPath_of_openPlaceholder? read), [], after, rfl, by
      rw [eq_of_openPlaceholder? read]; rfl⟩

theorem standsAt_succ_iff : StandsAt (n + 1) path (c :: s) ↔ StandsAt n path s := by
  refine and_congr_right fun _ => ?_
  constructor
  · rintro ⟨_ | ⟨d, before⟩, after, position, whole⟩
    · cases position
    · exact ⟨before, after, Nat.succ.inj position, (List.cons.inj whole).2⟩
  · rintro ⟨before, after, position, rfl⟩
    exact ⟨c :: before, after, congrArg (· + 1) position, rfl⟩

/-- Nothing stands at a position without an opening brace. -/
theorem standsAt_append_iff {start : List Char} (plain : '{' ∉ start) :
    StandsAt n path (start ++ s) ↔ ∃ m, n = start.length + m ∧ StandsAt m path s := by
  induction start generalizing n with
  | nil => simp
  | cons c start ih =>
    obtain ⟨first, others⟩ := not_or.1 (List.mem_cons.not.1 plain)
    rw [List.cons_append]
    cases n with
    | zero =>
      rw [standsAt_zero_iff, iff_false_left fun h => first h.1.symm]
      rintro ⟨m, position, -⟩
      simp only [List.length_cons] at position
      omega
    | succ n =>
      rw [standsAt_succ_iff, ih others]
      refine exists_congr fun m => and_congr_left fun _ => ?_
      simp only [List.length_cons]
      omega

/-- Behind a placeholder that was read, the text is looked at from its closing brace on: an opening
brace inside it would not be one of its path. -/
theorem standsAt_openPlaceholder? {start after : List Char}
    (read : openPlaceholder? s = some (start, after)) :
    StandsAt n path ('{' :: s) ↔
      n = 0 ∧ path = String.ofList start ∨ ∃ m, n = start.length + 2 + m ∧ StandsAt m path after := by
  cases n with
  | zero =>
    rw [standsAt_zero_iff, read]
    simp only [Option.some.injEq, Prod.mk.injEq, true_and, exists_and_left, exists_eq', and_true]
    constructor
    · rintro rfl
      exact .inl String.ofList_toList.symm
    · rintro (rfl | ⟨m, position, -⟩)
      · rw [String.toList_ofList]
      · omega
  | succ n =>
    have plain : '{' ∉ start ++ ['}'] := by
      simp only [List.mem_append, List.mem_singleton, not_or]
      exact ⟨fun mem => (ne_brace_of_isPath (isPath_of_openPlaceholder? read) mem).1 rfl, by decide⟩
    have behind : s = start ++ ['}'] ++ after := by simpa using eq_of_openPlaceholder? read
    rw [standsAt_succ_iff, behind, standsAt_append_iff plain]
    simp only [List.length_append, List.length_singleton, Nat.succ_ne_zero, false_and, false_or]
    exact exists_congr fun m => and_congr_left fun _ => by omega

end Stands

/-- A place in a text with the path of a placeholder. -/
structure Site where
  /-- How many characters there are before the placeholder. -/
  start : Nat
  path : String
  deriving DecidableEq, Repr

/-- How many characters there are up to the end of the placeholder. -/
def Site.stop (site : Site) : Nat := site.start + site.path.length + 2

/-- The placeholder of a site stands there in a text. -/
def Site.In (site : Site) (text : String) : Prop := StandsAt site.start site.path text.toList

/-- The sites of the placeholders among some parts that begin behind `n` characters. -/
def sitesFrom (n : Nat) : List Part → List Site
  | [] => []
  | .char _ :: parts => sitesFrom (n + 1) parts
  | .placeholder path :: parts => ⟨n, path⟩ :: sitesFrom (n + path.length + 2) parts

/-- The sites of the placeholders that the scanner reads in a text. -/
def sites (text : String) : List Site := sitesFrom 0 (template text)

section Sites

variable {n : Nat} {site : Site} {s : List Char} {text : String}

theorem map_path_sitesFrom (n : Nat) (parts : List Part) :
    (sitesFrom n parts).map Site.path = parts.filterMap Part.path? := by
  induction parts generalizing n with
  | nil => rfl
  | cons part parts ih =>
    cases part with
    | char c => exact ih (n + 1)
    | placeholder path => exact congrArg (path :: ·) (ih _)

theorem le_start_of_mem_sitesFrom {parts : List Part} (h : site ∈ sitesFrom n parts) :
    n ≤ site.start := by
  induction parts generalizing n with
  | nil => cases h
  | cons part parts ih =>
    cases part with
    | char c => exact Nat.le_of_succ_le (ih h)
    | placeholder path =>
      rcases List.mem_cons.1 h with rfl | h
      · exact Nat.le_refl n
      · have := ih h
        omega

/-- The scanner reads on where a placeholder ends. -/
theorem pairwise_sitesFrom (n : Nat) (parts : List Part) :
    (sitesFrom n parts).Pairwise fun first next => first.stop ≤ next.start := by
  induction parts generalizing n with
  | nil => exact .nil
  | cons part parts ih =>
    cases part with
    | char c => exact ih (n + 1)
    | placeholder path => exact .cons (fun next h => le_start_of_mem_sitesFrom h) (ih _)

/-- What does not stand at the first character stands behind it. -/
theorem exists_standsAt_cons_iff {c : Char} {path : String} {start : Nat}
    (none : ¬ StandsAt 0 path (c :: s)) :
    (∃ m, start = n + m ∧ StandsAt m path (c :: s)) ↔
      ∃ m, start = n + 1 + m ∧ StandsAt m path s := by
  constructor
  · rintro ⟨_ | m, position, stands⟩
    · exact absurd stands none
    · exact ⟨m, by omega, standsAt_succ_iff.1 stands⟩
  · rintro ⟨m, position, stands⟩
    exact ⟨m + 1, by omega, standsAt_succ_iff.2 stands⟩

/-- The scanner reads exactly the placeholders that stand in a text. -/
theorem mem_sitesFrom_scan_iff :
    site ∈ sitesFrom n (scan s) ↔ ∃ m, site.start = n + m ∧ StandsAt m site.path s := by
  fun_induction scan s generalizing n with
  | case1 => simp [sitesFrom, not_standsAt_nil]
  | case2 rest path after read ih =>
    simp only [sitesFrom, List.mem_cons, ih, standsAt_openPlaceholder? read, String.length_ofList]
    constructor
    · rintro (rfl | ⟨m, position, stands⟩)
      · exact ⟨0, rfl, .inl ⟨rfl, rfl⟩⟩
      · exact ⟨path.length + 2 + m, by omega, .inr ⟨m, rfl, stands⟩⟩
    · rintro ⟨_, position, ⟨rfl, same⟩ | ⟨m, rfl, stands⟩⟩
      · exact .inl (congrArg₂ Site.mk position same)
      · exact .inr ⟨m, by omega, stands⟩
  | case3 rest unread ih =>
    have none : ¬ StandsAt 0 site.path ('{' :: rest) := by
      rw [standsAt_zero_iff, unread]
      rintro ⟨-, after, ⟨⟩⟩
    rw [sitesFrom, ih, exists_standsAt_cons_iff none]
  | case4 c rest other ih =>
    have none : ¬ StandsAt 0 site.path (c :: rest) := fun h => other (standsAt_zero_iff.1 h).1
    rw [sitesFrom, ih, exists_standsAt_cons_iff none]

theorem mem_sites_iff : site ∈ sites text ↔ site.In text := by
  rw [sites, template, mem_sitesFrom_scan_iff, Site.In]
  simp

theorem map_path_sites (text : String) : (sites text).map Site.path = find text :=
  map_path_sitesFrom 0 _

/-- The sites are listed from left to right, and none begins before the one in front of it ends. -/
theorem pairwise_sites (text : String) :
    (sites text).Pairwise fun first next => first.stop ≤ next.start := pairwise_sitesFrom 0 _

/-- Placeholders that stand in a text do not overlap. -/
theorem Site.In.apart {other : Site} (h : site.In text) (ho : other.In text) (ne : site ≠ other) :
    site.stop ≤ other.start ∨ other.stop ≤ site.start := by
  let Apart (first next : Site) : Prop := first.stop ≤ next.start ∨ next.stop ≤ first.start
  have symm : Std.Symm Apart := ⟨fun _ _ => Or.symm⟩
  have order : (sites text).Pairwise Apart := (pairwise_sites text).imp .inl
  exact order.forall (mem_sites_iff.2 h) (mem_sites_iff.2 ho) ne

end Sites

section Single

variable {text path : String}

/-- A text is taken for one placeholder exactly if it is one once it is trimmed. -/
theorem single?_iff_trim_eq : single? text = some path ↔
    WellFormed path.toList ∧ trim text.toList = '{' :: path.toList ++ ['}'] := by
  constructor
  · intro h
    unfold single? at h
    split at h
    · rename_i p hs
      obtain rfl : p = path := by simpa using h
      have mem : .placeholder p ∈ scan (trim text.toList) := by simp [hs]
      have formed := (eq_of_placeholder_mem_scan mem).1
      refine ⟨isPath_iff.1 formed, ?_⟩
      simpa [hs, Part.text] using (flatMap_text_scan (trim text.toList)).symm
    · cases h
  · rintro ⟨formed, whole⟩
    have scanned := scan_placeholder (isPath_iff.2 formed) []
    rw [single?, whole, scanned, String.ofList_toList, scan]

/-- There is no colon in a placeholder, but in every object literal. -/
theorem parseObject?_of_single? (h : single? text = some path) : Expression.parseObject? text = none := by
  obtain ⟨formed, whole⟩ := single?_iff_trim_eq.1 h
  have colon : ':' ∉ path.toList := fun mem => by
    rcases isSegmentChar_of_isPath (isPath_iff.2 formed) mem with plain | dot
    · exact absurd plain (by decide)
    · exact absurd dot (by decide)
  have body : beforeLast? '}' (path.toList ++ ['}']) = some path.toList := beforeLast?_eq_some_iff.2 rfl
  rw [Expression.parseObject?, Expression.optionPairs?, whole]
  simp [afterStart?, body, colon]

end Single

/-- The scanner finds exactly the placeholders: those that stand in the text, each where it stands,
from left to right, and they never overlap. A text has a placeholder if one stands somewhere in it; it
is one if it is one without the blanks around it, and then it is no object literal. -/
theorem scanner_finds_placeholders (text : String) :
    (∃ found : List Site, find text = found.map Site.path ∧
      (∀ site, site ∈ found ↔ site.In text) ∧
      found.Pairwise fun first next => first.stop ≤ next.start) ∧
    (∀ site other : Site, site.In text → other.In text → site ≠ other →
      site.stop ≤ other.start ∨ other.stop ≤ site.start) ∧
    (occursIn text = true ↔ find text ≠ []) ∧
    (∀ path, single? text = some path ↔
      WellFormed path.toList ∧ trim text.toList = '{' :: path.toList ++ ['}']) ∧
    (single? text = none ∨ Expression.parseObject? text = none) := by
  refine ⟨⟨sites text, (map_path_sites text).symm, fun _ => mem_sites_iff, pairwise_sites text⟩,
    fun _ _ h ho ne => h.apart ho ne, ?_, fun _ => single?_iff_trim_eq, ?_⟩
  · simp [occursIn]
  · cases h : single? text with
    | none => exact .inl rfl
    | some path => exact .inr (parseObject?_of_single? h)

end DesignTokens.Reference
