import DesignTokens.Proofs.Expression.Pieces
import DesignTokens.Proofs.Reference.Filling

/-!
# Calls with placeholders

Placeholders are replaced in the text of a call before its arguments are told apart. If no scan can be
aware of a placeholder, nor of what is put in for it, this is the same as replacing the placeholders of
each argument on its own: the text is cut at the same commas as before, wherever the placeholders stand.

A placeholder goes unnoticed if there is no quote in its path. A text to put in does if it has no quotes,
its brackets match, and all its commas stand inside of some. It must not be blank either, since a blank
last argument would be lost.
-/

namespace DesignTokens

open Text Reference

namespace Expression

variable {put : String → String} {n : Nesting} {s body piece text : List Char}

/-- A text that can be put in for a placeholder anywhere in a call. -/
structure IsInsert (s : List Char) : Prop where
  full : ∃ c ∈ s, isBlank c = false
  unquoted : ∀ c ∈ s, isQuote c = false
  enclosed : Enclosed s

/-- The placeholders of a text can be replaced without a scan being aware of it. -/
structure Fillable (put : String → String) (s : List Char) : Prop where
  unquoted : ∀ path, .placeholder path ∈ scan s → ∀ c ∈ path.toList, isQuote c = false
  inserts : ∀ path, .placeholder path ∈ scan s → IsInsert (put path).toList

section Unnoticed

/-- A placeholder is a pair of braces, without other brackets or commas. -/
theorem enclosed_placeholderText {path : String} (h : isPath path.toList) :
    Enclosed (placeholderText path).toList := by
  have free {c : Char} (hc : isSegmentChar c = false) (hd : c ≠ '.') : c ∉ path.toList := by
    intro hm
    rcases isSegmentChar_of_isPath h hm with segment | dot
    · simp [hc] at segment
    · exact hd dot
  have opening : '{' ∉ path.toList := free (by decide) (by decide)
  have closing : '}' ∉ path.toList := free (by decide) (by decide)
  have unbroken {c : Char} (hc : isBreak c = true) : c ∉ (placeholderText path).toList := by
    obtain ⟨segment, dot, brace, brace'⟩ := not_isSegmentChar_of_isBreak hc
    simp [brace, brace', free segment dot]
  refine ⟨balanced_of_notMem (unbroken (by decide)) (unbroken (by decide)), ?_, ?_⟩
  · rw [toList_placeholderText]
    exact balanced_pair (by decide) opening closing
  · intro before after he
    exact absurd (by simp [he]) (unbroken (c := ',') (by decide))

/-- No scan is aware of the placeholders of a text being replaced. -/
theorem alike_fill (h : Fillable put s) (hn : n.Proper) : n.Alike s (fill put s) := by
  suffices parts : ∀ parts : List Part, (∀ part ∈ parts, part ∈ scan s) →
      n.Alike (parts.flatMap (·.text.toList)) (parts.flatMap (Part.fill put)) by
    have all := parts (scan s) fun _ hp => hp
    rwa [flatMap_text_scan] at all
  intro parts hp
  induction parts generalizing n with
  | nil => exact .refl n []
  | cons part parts ih =>
    rw [List.flatMap_cons, List.flatMap_cons]
    refine Nesting.Alike.append ?_ (ih (hn.feedAll _) fun p hm => hp p (List.mem_cons_of_mem _ hm))
    cases part with
    | char c =>
      have same : (Part.char c).text.toList = Part.fill put (.char c) := by simp [Part.text, Part.fill]
      rw [same]
      exact .refl n _
    | placeholder path =>
      have hm := hp (.placeholder path) (by simp)
      obtain ⟨isPath, -⟩ := eq_of_placeholder_mem_scan hm
      have unquoted : ∀ c ∈ (placeholderText path).toList, isQuote c = false := by
        have path := h.unquoted path hm
        intro c hc
        simp only [toList_placeholderText, List.cons_append, List.mem_cons, List.mem_append,
          List.not_mem_nil, or_false] at hc
        rcases hc with rfl | hc | rfl
        · decide
        · exact path c hc
        · decide
      have insert := h.inserts path hm
      exact .of_steady ((enclosed_placeholderText isPath).steady unquoted hn)
        (insert.enclosed.steady insert.unquoted hn)

end Unnoticed

section Pieces

variable {first : List Char} {others : List (List Char)}

theorem fill_behindCommas (put : String → String) (first : List Char) (others : List (List Char)) :
    fill put (first ++ behindCommas others) =
      fill put first ++ behindCommas (others.map (fill put)) := by
  induction others generalizing first with
  | nil => simp [behindCommas]
  | cons next others ih =>
    rw [behindCommas_cons, fill_append_break (by decide), ih, List.map_cons, behindCommas_cons]

/-- The placeholders of a piece are placeholders of the text. -/
theorem placeholder_mem_scan_join {path : String} (hp : piece ∈ first :: others)
    (h : .placeholder path ∈ scan piece) :
    .placeholder path ∈ scan (first ++ behindCommas others) := by
  induction others generalizing first with
  | nil =>
    obtain rfl := List.mem_singleton.1 hp
    simpa [behindCommas] using h
  | cons next others ih =>
    rw [behindCommas_cons, scan_append_break (by decide), List.mem_append]
    rcases List.mem_cons.1 hp with rfl | hp
    · exact .inl h
    · exact .inr (List.mem_cons_of_mem _ (ih hp))

namespace Fillable

theorem of_subset (h : Fillable put text)
    (sub : ∀ path, .placeholder path ∈ scan s → .placeholder path ∈ scan text) : Fillable put s :=
  ⟨fun path hm => h.unquoted path (sub path hm), fun path hm => h.inserts path (sub path hm)⟩

theorem of_mem_pieces (h : Fillable put s) (hp : piece ∈ pieces .outside s) :
    Fillable put piece := by
  obtain ⟨first, others, cut, joined⟩ := exists_pieces_eq_cons .outside s
  rw [cut] at hp
  apply h.of_subset
  intro path hm
  rw [joined]
  exact placeholder_mem_scan_join hp hm

/-- The text with its placeholders replaced is cut where it was cut before. -/
theorem pieces_fill (h : Fillable put s) :
    pieces .outside (fill put s) = (pieces .outside s).map (fill put) := by
  have segmented := (segmented_pieces s).map (f := fill put) fun piece hp =>
    alike_fill (h.of_mem_pieces hp) Nesting.proper_outside
  obtain ⟨first, others, cut, joined⟩ := exists_pieces_eq_cons .outside s
  rw [cut] at segmented ⊢
  rw [joined, fill_behindCommas]
  exact pieces_join segmented

theorem trim_fill_eq_nil_iff (h : Fillable put s) : trim (fill put s) = [] ↔ trim s = [] := by
  rw [trim_eq_nil_iff, trim_eq_nil_iff]
  constructor
  · exact isBlank_of_fill fun path hm => (h.inserts path hm).full
  · intro blank
    have brace : '{' ∉ s := fun hm => ne_brace_of_isBlank (blank _ hm) rfl
    have same := fill_append_of_notMem brace put []
    rw [List.append_nil, fill_nil, List.append_nil] at same
    rwa [same]

/-- The arguments are those of before, with the placeholders of each replaced on its own. -/
theorem splitArguments_fill (h : Fillable put body) :
    splitArguments (fill put body) = (splitArguments body).map fun arg => trim (fill put arg) := by
  have args : (pieces .outside (fill put body)).map trim =
      ((pieces .outside body).map trim).map fun arg => trim (fill put arg) := by
    rw [h.pieces_fill, List.map_map, List.map_map]
    apply List.map_congr_left
    intro piece _
    exact (trim_fill_trim put piece).symm
  have last : (((pieces .outside body).map trim).map fun arg => trim (fill put arg)).getLast? =
      some [] ↔ ((pieces .outside body).map trim).getLast? = some [] := by
    rw [List.map_map, List.getLast?_map, List.getLast?_map, Option.map_eq_some_iff,
      Option.map_eq_some_iff]
    refine exists_congr fun piece => and_congr_right fun hp => ?_
    rw [Function.comp_apply, trim_fill_trim]
    exact (h.of_mem_pieces (List.mem_of_getLast? hp)).trim_fill_eq_nil_iff
  rw [splitArguments, splitArguments, args]
  by_cases blank : ((pieces .outside body).map trim).getLast? = some []
  · rw [if_pos (last.2 blank), if_pos blank, List.map_dropLast]
  · rw [if_neg (mt last.1 blank), if_neg blank]

end Fillable

end Pieces

end Expression

namespace Call

open Expression

variable {put : String → String} {name body : List Char} {text : String} {call : Call}

/-- No placeholder reaches into the name or over the parentheses of a call. -/
theorem scan_spelled (named : isName name = true) (body : List Char) :
    scan (name ++ '(' :: body ++ [')']) =
      (name ++ ['(']).map .char ++ scan body ++ [.char ')'] := by
  have brace : ∀ c ∈ name ++ ['('], c ≠ '{' := by
    rintro c hc rfl
    rcases List.mem_append.1 hc with hc | hc
    · exact absurd (isNameChar_of_isName named _ hc) (by decide)
    · exact absurd hc (by decide)
  have whole : name ++ '(' :: body ++ [')'] = (name ++ ['(']) ++ (body ++ ')' :: []) := by simp
  rw [whole, scan_append brace, scan_append_break (by decide), scan, List.append_assoc]

/-- A call with its placeholders replaced is spelled as before, with those of its body replaced. -/
theorem Spells.substitute (h : Spells name body text) (hf : Fillable put text.toList) :
    Fillable put body ∧ Spells name (fill put body) (Reference.substitute put text) := by
  have trimmed : Fillable put (name ++ '(' :: body ++ [')']) := by
    rw [← h.trimmed]
    exact hf.of_subset fun path => (placeholder_mem_scan_padded (padded_trim _)).2
  have body' : Fillable put body := by
    apply trimmed.of_subset
    intro path hm
    rw [scan_spelled h.named]
    simp [hm]
  have filled : fill put (name ++ '(' :: body ++ [')']) = name ++ '(' :: fill put body ++ [')'] := by
    rw [fill, scan_spelled h.named, List.flatMap_append, List.flatMap_append, flatMap_fill_char]
    simp [fill, Part.fill]
  refine ⟨body', ?_, h.named, (alike_fill body' Nesting.proper_outside).wellNested h.nested⟩
  rw [substitute_eq_fill, String.toList_ofList, ← trim_fill_trim, h.trimmed, filled,
    trim_spelled h.named]

/-- What is asked of the placeholders of a text, by their paths. -/
theorem fillable_of_find (unquoted : ∀ path ∈ find text, ∀ c ∈ path.toList, isQuote c = false)
    (inserts : ∀ path ∈ find text, IsInsert (put path).toList) : Fillable put text.toList :=
  ⟨fun path hm => unquoted path (mem_filterMap_path?.2 hm),
    fun path hm => inserts path (mem_filterMap_path?.2 hm)⟩

/-- With no quote in the path of a placeholder, and texts put in that no scan is aware of, replacing
the placeholders of a call replaces those of each argument: the text is a call of the same name still,
and its arguments are those of before, each with its placeholders replaced and trimmed anew. -/
theorem substituted_argumentwise (read : parse? text = some call)
    (unquoted : ∀ path ∈ find text, ∀ c ∈ path.toList, isQuote c = false)
    (inserts : ∀ path ∈ find text, IsInsert (put path).toList) :
    parse? (Reference.substitute put text) =
      some ⟨call.name, call.arguments.map fun arg => trimmed (Reference.substitute put arg)⟩ := by
  obtain ⟨body, spelled, args⟩ := exists_spells read
  obtain ⟨fillable, spelled⟩ := spelled.substitute (fillable_of_find unquoted inserts)
  rw [spelled.parse?_eq, fillable.splitArguments_fill, ← args, String.ofList_toList, List.map_map,
    List.map_map]
  simp [Function.comp_def, trimmed, substitute_eq_fill]

section Shadow

/-- A call with placeholders in an argument, in quotes inside a nested call, and in an object. -/
def shadowText : String := "shadow( \x7bsize\x7d , f('\x7btone\x7d, x'), \x7b x: \x7bsize\x7d \x7d)"

/-- A size that holds a comma, and a tone. -/
def shadowPut (path : String) : String := if path = "size" then "max(1px, 2px)" else "red"

theorem parse?_shadowText :
    parse? shadowText =
      some ⟨"shadow", ["\x7bsize\x7d", "f('\x7btone\x7d, x')", "\x7b x: \x7bsize\x7d \x7d"]⟩ := rfl

theorem find_shadowText : find shadowText = ["size", "tone", "size"] := by cbv

theorem isInsert_shadowPut (path : String) : IsInsert (shadowPut path).toList := by
  rw [shadowPut]
  split
  · exact ⟨⟨'m', by decide, by decide⟩, isQuote_eq_false_of_any (by decide), by decide⟩
  · exact ⟨⟨'r', by decide, by decide⟩, isQuote_eq_false_of_any (by decide), by decide⟩

theorem substituted_argumentwise_shadow :
    parse? shadowText =
        some ⟨"shadow",
          ["\x7bsize\x7d", "f('\x7btone\x7d, x')", "\x7b x: \x7bsize\x7d \x7d"]⟩ ∧
      (∀ path ∈ find shadowText, ∀ c ∈ path.toList, isQuote c = false) ∧
      (∀ path ∈ find shadowText, IsInsert (shadowPut path).toList) ∧
      parse? (Reference.substitute shadowPut shadowText) =
        some ⟨"shadow", ["max(1px, 2px)", "f('red, x')", "\x7b x: max(1px, 2px) \x7d"]⟩ := by
  have unquoted : ∀ path ∈ find shadowText, ∀ c ∈ path.toList, isQuote c = false := by
    intro path hp
    simp only [find_shadowText, List.mem_cons, List.not_mem_nil, or_false] at hp
    rcases hp with rfl | rfl | rfl
    all_goals exact isQuote_eq_false_of_any (by decide)
  have inserts : ∀ path ∈ find shadowText, IsInsert (shadowPut path).toList :=
    fun path _ => isInsert_shadowPut path
  refine ⟨parse?_shadowText, unquoted, inserts, ?_⟩
  rw [substituted_argumentwise parse?_shadowText unquoted inserts]
  cbv

end Shadow

end Call

end DesignTokens
