import DesignTokens.Proofs.Expression.Pieces

/-!
# Signatures are read back

The signature of a call is its name and its arguments, joined by commas and blanks and put between
parentheses. Read as a call, it gives the call again, if each argument is a text that brackets and
quotes do not reach out of, and the last one is not empty.

The arguments of a call that was read are such texts, with one exception: a last one that leaves a brace
open, which does no harm where it stands. So for calls that were read the one thing to ask is whether
the last argument is empty. It would be lost.
-/

namespace DesignTokens

open Text

namespace Expression

variable {args : List (List Char)} {arg : List Char}

/-- A text that can stand as an argument: there are no blanks around it, quotes are closed in it, and
outside of them brackets match and every comma stands inside of some. -/
structure IsArgument (arg : List Char) : Prop where
  trimmed : trim arg = arg
  enclosed : ∃ v, Bare arg v ∧ Enclosed v

theorem IsArgument.wellNested (h : IsArgument arg) : WellNested arg := by
  obtain ⟨v, bare, enclosed⟩ := h.enclosed
  exact ⟨v, bare, enclosed.parens⟩

theorem IsArgument.steady (h : IsArgument arg) : Nesting.outside.Steady arg := by
  obtain ⟨v, bare, enclosed⟩ := h.enclosed
  exact enclosed.steady_of_bare bare rfl

theorem segmented_of_isArgument (h : ∀ arg ∈ args, IsArgument arg) : Segmented args :=
  ⟨fun arg ha => (h arg ha).steady.solid,
    fun arg ha => (h arg (List.dropLast_subset _ ha)).steady.kept⟩

section Joined

variable (trimmed : ∀ arg ∈ args, trim arg = arg) (segmented : Segmented args)

theorem segmented_spaced (segmented : Segmented args) : Segmented (spaced args) := by
  cases args with
  | nil => exact Segmented.cons_iff.2 ⟨Nesting.atEach_nil _ _ _, by simp, .nil⟩
  | cons first others =>
    obtain ⟨solid, settled, rest⟩ := Segmented.cons_iff.1 segmented
    exact Segmented.cons_iff.2 ⟨solid, by simpa using settled, rest.map fun arg _ => alike_blank arg⟩

include segmented in
/-- Segmented texts that are joined by commas and blanks are cut apart at these commas. -/
theorem pieces_intercalate :
    pieces .outside (", ".toList.intercalate args) = spaced args := by
  have spaced := segmented_spaced segmented
  cases args with
  | nil => rfl
  | cons first others => rw [intercalate_cons, pieces_join spaced]; rfl

include trimmed segmented in
/-- Segmented texts that are joined by commas and blanks are told apart again, but for an empty last
one. -/
theorem splitArguments_intercalate :
    splitArguments (", ".toList.intercalate args) =
      if args.getLast? = some [] then args.dropLast else args := by
  have cut := pieces_intercalate segmented
  cases args with
  | nil => rfl
  | cons first others =>
    have each : ∀ arg ∈ others, (trim ∘ (' ' :: ·)) arg = id arg := by
      intro arg ha
      rw [Function.comp_apply, trim_cons_of_isBlank (by decide)]
      exact trimmed arg (List.mem_cons_of_mem _ ha)
    have again : (spaced (first :: others)).map trim = first :: others := by
      rw [spaced, List.map_cons, List.map_map, List.map_congr_left each, List.map_id,
        trimmed first (by simp)]
    rw [splitArguments, cut, again]

include segmented in
theorem wellNested_intercalate (nested : ∀ arg ∈ args, WellNested arg) :
    WellNested (", ".toList.intercalate args) := by
  rw [wellNested_iff_pieces, pieces_intercalate segmented]
  cases args with
  | nil => simpa [spaced] using ⟨[], .nil, by simp, rfl⟩
  | cons first others =>
    intro piece hp
    rcases List.mem_cons.1 hp with he | hp
    · exact he ▸ nested first (by simp)
    · obtain ⟨arg, ha, rfl⟩ := List.mem_map.1 hp
      exact (alike_blank arg).wellNested (nested arg (List.mem_cons_of_mem _ ha))

end Joined

end Expression

namespace Call

open Expression

variable {text : String} {call : Call} {body : List Char}

/-- A signature is read as the call with its arguments, but for an empty last one. -/
theorem parse?_signature (named : isName call.name.toList = true)
    (trimmed : ∀ arg ∈ call.arguments.map String.toList, trim arg = arg)
    (segmented : Segmented (call.arguments.map String.toList))
    (nested : ∀ arg ∈ call.arguments.map String.toList, WellNested arg) :
    parse? call.signature =
      some ⟨call.name,
        if call.arguments.getLast? = some "" then call.arguments.dropLast else call.arguments⟩ := by
  have spelled : Spells call.name.toList
      (", ".toList.intercalate (call.arguments.map String.toList)) call.signature :=
    ⟨by rw [trim_signature named, toList_signature], named, wellNested_intercalate segmented nested⟩
  have last : (call.arguments.map String.toList).getLast? = some [] ↔
      call.arguments.getLast? = some "" := by
    rw [List.getLast?_map, Option.map_eq_some_iff]
    simp
  have texts (args : List String) : (args.map String.toList).map String.ofList = args := by
    simp [Function.comp_def]
  rw [spelled.parse?_eq, splitArguments_intercalate trimmed segmented, String.ofList_toList]
  by_cases h : call.arguments.getLast? = some ""
  · rw [if_pos (last.2 h), if_pos h, ← List.map_dropLast, texts]
  · rw [if_neg (mt last.1 h), if_neg h, texts]

/-- The arguments that a body is told apart into are well nested, and segmented. -/
theorem segmented_splitArguments (h : WellNested body) :
    (∀ arg ∈ splitArguments body, trim arg = arg) ∧ Segmented (splitArguments body) ∧
      ∀ arg ∈ splitArguments body, WellNested arg := by
  have start := splitArguments_prefix body
  have pieces_of {arg : List Char} (ha : arg ∈ splitArguments body) :
      ∃ piece ∈ pieces .outside body, trim piece = arg :=
    List.mem_map.1 (start.subset ha)
  have segmented := (segmented_pieces body).map fun piece _ => alike_trim piece
  refine ⟨?_, segmented.of_prefix start, ?_⟩
  · intro arg ha
    obtain ⟨piece, -, rfl⟩ := pieces_of ha
    exact trim_trim piece
  · intro arg ha
    obtain ⟨piece, hp, rfl⟩ := pieces_of ha
    exact (alike_trim piece).wellNested ((wellNested_iff_pieces body).1 h piece hp)

/-- Nothing is lost with an empty last argument only if there is none. -/
theorem without_empty_last_iff {args : List String} :
    (if args.getLast? = some "" then args.dropLast else args) = args ↔
      args = [] ∨ ∃ last, args.getLast? = some last ∧ last ≠ "" := by
  cases hl : args.getLast? with
  | none => simp [List.getLast?_eq_none_iff.1 hl]
  | some last =>
    have ne : args ≠ [] := by
      rintro rfl
      simp at hl
    have shorter : args.dropLast ≠ args := by
      intro same
      have := congrArg List.length same
      have := List.length_pos_iff.2 ne
      rw [List.length_dropLast] at *
      omega
    by_cases he : last = "" <;> simp [he, ne, shorter]

/-- The signature of a call with a name and arguments that can stand as such is read as the call, if
the last argument is not empty. The signature of a call that was read is read as that call exactly if
there is no argument, or the last one is not empty. -/
theorem signature_read_back :
    (∀ name : String, ∀ args : List String, isName name.toList = true →
        (∀ arg ∈ args, IsArgument arg.toList) → args.getLast? ≠ some "" →
        parse? (signature ⟨name, args⟩) = some ⟨name, args⟩) ∧
      ∀ text call, parse? text = some call →
        (parse? call.signature = some call ↔
          call.arguments = [] ∨ ∃ last, call.arguments.getLast? = some last ∧ last ≠ "") := by
  refine ⟨?_, ?_⟩
  · intro name args named arguments last
    have each : ∀ arg ∈ args.map String.toList, IsArgument arg := by simpa using arguments
    rw [parse?_signature named (fun arg ha => (each arg ha).trimmed) (segmented_of_isArgument each)
      fun arg ha => (each arg ha).wellNested]
    simp [last]
  · intro text call read
    obtain ⟨body, spelled, args⟩ := exists_spells read
    obtain ⟨trimmed, segmented, nested⟩ := segmented_splitArguments spelled.nested
    rw [← args] at trimmed segmented nested
    rw [parse?_signature spelled.named trimmed segmented nested, ← without_empty_last_iff]
    cases call
    rw [Option.some.injEq, Call.mk.injEq]
    exact and_iff_right rfl

/-- Commas in quotes, objects and nested calls come back where they were, and so does an empty argument,
unless it is the last. -/
theorem signature_read_back_gradient :
    parse? (signature ⟨"gradient", ["'a, b'", "", "\x7b x: 1, y: 2 \x7d", "rgb(1, 2)"]⟩) =
        some ⟨"gradient", ["'a, b'", "", "\x7b x: 1, y: 2 \x7d", "rgb(1, 2)"]⟩ ∧
      parse? "f(a, ,)" = some ⟨"f", ["a", ""]⟩ ∧
      parse? (signature ⟨"f", ["a", ""]⟩) ≠ some ⟨"f", ["a", ""]⟩ := by
  have read : parse? "f(a, ,)" = some ⟨"f", ["a", ""]⟩ := rfl
  have plain {arg : List Char} (ht : trim arg = arg) (hq : arg.any isQuote = false)
      (he : Enclosed arg) : IsArgument arg :=
    ⟨ht, arg, bare_self (isQuote_eq_false_of_any hq), he⟩
  have run : '\'' ∉ "a, b".toList := by decide
  have quoted : Bare "'a, b'".toList [] := .quoted (by decide) run .nil
  refine ⟨signature_read_back.1 _ _ (by decide) ?_ (by decide), read, ?_⟩
  · intro arg ha
    simp only [List.mem_cons, List.not_mem_nil, or_false] at ha
    rcases ha with rfl | rfl | rfl | rfl
    · exact ⟨by decide, [], quoted, by decide⟩
    · exact plain (by decide) (by decide) (by decide)
    · exact plain (by decide) (by decide) (by decide)
    · exact plain (by decide) (by decide) (by decide)
  · rw [Ne, signature_read_back.2 _ _ read]
    decide

end Call

end DesignTokens
