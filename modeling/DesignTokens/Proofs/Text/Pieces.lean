import DesignTokens.Text.Basic
import Mathlib.Logic.Basic

/-!
# Pieces of a text

A text that is joined from pieces with a character between them is split into these pieces at the
character, if none of them has it.
-/

namespace DesignTokens.Text

variable {c : Char} {s : List Char}

theorem splitAt_of_notMem (h : c ∉ s) : splitAt c s = [s] := by
  induction s with
  | nil => rfl
  | cons d s ih =>
    obtain ⟨first, rest⟩ := not_or.1 (List.mem_cons.not.1 h)
    rw [splitAt, if_neg (Ne.symm first), ih rest]

theorem splitAt_append (h : c ∉ s) (rest : List Char) :
    splitAt c (s ++ c :: rest) = s :: splitAt c rest := by
  induction s with
  | nil => simp [splitAt]
  | cons d s ih =>
    obtain ⟨first, others⟩ := not_or.1 (List.mem_cons.not.1 h)
    rw [List.cons_append, splitAt, if_neg (Ne.symm first), ih others]

theorem splitAt_flatMap {first : List Char} (hf : c ∉ first) {parts : List (List Char)}
    (h : ∀ part ∈ parts, c ∉ part) :
    splitAt c (first ++ parts.flatMap (c :: ·)) = first :: parts := by
  induction parts generalizing first with
  | nil => simpa using splitAt_of_notMem hf
  | cons part parts ih =>
    rw [List.flatMap_cons, List.cons_append, splitAt_append hf,
      ih (h part (by simp)) fun part hp => h part (List.mem_cons_of_mem _ hp)]

/-- A text is its first piece and the others, each behind the character that it was split at. -/
theorem exists_splitAt_eq_cons (c : Char) (s : List Char) :
    ∃ first others, splitAt c s = first :: others ∧ s = first ++ others.flatMap (c :: ·) := by
  induction s with
  | nil => exact ⟨[], [], rfl, rfl⟩
  | cons d s ih =>
    obtain ⟨first, others, pieces, joined⟩ := ih
    rw [splitAt, pieces]
    split
    · rename_i same
      exact ⟨[], first :: others, rfl, by rw [same, joined]; rfl⟩
    · exact ⟨d :: first, others, rfl, by rw [joined]; rfl⟩

theorem intercalate_singleton_cons (c : Char) (first : List Char) (others : List (List Char)) :
    [c].intercalate (first :: others) = first ++ others.flatMap (c :: ·) := by
  induction others generalizing first with
  | nil => simp
  | cons second others ih =>
    rw [List.intercalate_cons_cons, ih]
    simp

section Words

variable {blanks part rest : List Char}

theorem words_go_of_solid (hc : isBlank c = false) (rest word : List Char) :
    words.go (c :: rest) word = words.go rest (c :: word) := by
  show (if isBlank c = true then _ else _) = _
  rw [if_neg (by simp [hc])]

theorem words_go_of_blank (hc : isBlank c) (rest : List Char) :
    words.go (c :: rest) [] = words.go rest [] := by
  show (if isBlank c = true then _ else _) = _
  exact if_pos hc

/-- A word ends with the text or at a blank. -/
theorem words_go_of_apart {d : Char} (word : List Char) (apart : ∀ c ∈ rest.head?, isBlank c) :
    words.go rest (d :: word) = (d :: word).reverse :: words rest := by
  cases rest with
  | nil => rfl
  | cons c rest =>
    have hc : isBlank c = true := apart c rfl
    rw [words, words_go_of_blank hc]
    show (if isBlank c = true then _ else _) = _
    exact if_pos hc

theorem words_go_append (hp : ∀ c ∈ part, isBlank c = false) (rest word : List Char) :
    words.go (part ++ rest) word = words.go rest (part.reverse ++ word) := by
  induction part generalizing word with
  | nil => rfl
  | cons c part ih =>
    obtain ⟨hc, others⟩ := List.forall_mem_cons.1 hp
    rw [List.cons_append, words_go_of_solid hc, ih others, List.reverse_cons, List.append_assoc]
    rfl

theorem words_go_blanks (hb : ∀ c ∈ blanks, isBlank c) (rest : List Char) :
    words.go (blanks ++ rest) [] = words.go rest [] := by
  induction blanks with
  | nil => rfl
  | cons c blanks ih =>
    obtain ⟨hc, others⟩ := List.forall_mem_cons.1 hb
    rw [List.cons_append, words_go_of_blank hc, ih others]

theorem words_of_blanks (hb : ∀ c ∈ blanks, isBlank c) : words blanks = [] := by
  have split := words_go_blanks hb []
  rwa [List.append_nil] at split

/-- The first word of a text stands between its first blanks and the next ones. -/
theorem words_append (hb : ∀ c ∈ blanks, isBlank c) (hp : ∀ c ∈ part, isBlank c = false)
    (filled : part ≠ []) (apart : ∀ c ∈ rest.head?, isBlank c) :
    words (blanks ++ part ++ rest) = part :: words rest := by
  have reversed : part.reverse ≠ [] := by simpa using filled
  obtain ⟨last, front, split⟩ := List.exists_cons_of_ne_nil reversed
  rw [words, List.append_assoc, words_go_blanks hb, words_go_append hp, List.append_nil, split,
    words_go_of_apart _ apart, ← split, List.reverse_reverse]

end Words

theorem cut?_append (h : c ∉ s) (rest : List Char) : cut? c (s ++ c :: rest) = some (s, rest) := by
  induction s with
  | nil => simp [cut?]
  | cons d s ih =>
    obtain ⟨first, others⟩ := not_or.1 (List.mem_cons.not.1 h)
    rw [List.cons_append, cut?, if_neg (Ne.symm first), ih others]
    rfl

theorem eq_of_cut? {before after : List Char} (h : cut? c s = some (before, after)) :
    s = before ++ c :: after := by
  induction s generalizing before with
  | nil => cases h
  | cons d s ih =>
    rw [cut?] at h
    split at h
    · rename_i same
      obtain ⟨rfl, rfl⟩ := Prod.mk.inj (Option.some.inj h)
      rw [same, List.nil_append]
    · obtain ⟨⟨left, right⟩, cut, same⟩ := Option.map_eq_some_iff.1 h
      obtain ⟨rfl, rfl⟩ := Prod.mk.inj same
      rw [ih cut, List.cons_append]

theorem cut?_of_notMem (h : c ∉ s) : cut? c s = none := by
  induction s with
  | nil => rfl
  | cons d s ih =>
    obtain ⟨first, rest⟩ := not_or.1 (List.mem_cons.not.1 h)
    rw [cut?, if_neg (Ne.symm first), ih rest]
    rfl

end DesignTokens.Text
