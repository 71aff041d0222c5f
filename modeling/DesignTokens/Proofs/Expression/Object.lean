import DesignTokens.Expression.ObjectLiteral
import DesignTokens.Proofs.Expression.RoundTrip
import DesignTokens.Proofs.KeyedList
import DesignTokens.Proofs.Text.Ends
import DesignTokens.Proofs.Text.Pieces

/-!
# Object literals are read back

An object literal is written as its pairs between braces, with a comma between two pairs and a colon
between a key and its value. Blanks may stand around each of these, and a key may stand in quotes.
`ObjectWritten` says so, and such a text is read as the pairs again, each key with its last value.

The pairs of a literal are told apart like the arguments of a call, so a value may hold commas inside
of quotes and brackets. A pair is cut at its first colon, and a key has none, so a value may hold colons
anywhere.
-/

namespace DesignTokens.Expression

open Text Nesting

/-- The characters that take part in how an object literal is cut. -/
def marks : List Char := ['\'', '"', ',', ':', '(', ')', '{', '}']

/-- A text that stands for itself as a key and as a value. -/
structure IsWord (text : String) : Prop where
  filled : text ≠ ""
  trimmed : trimmed text = text
  free : ∀ c ∈ marks, c ∉ text.toList

theorem isWord_iff {text : String} : IsWord text ↔
    text ≠ "" ∧ trimmed text = text ∧ (marks.all fun c => !text.toList.contains c) = true := by
  simp only [List.all_eq_true, Bool.not_eq_true', List.contains_eq_mem, decide_eq_false_iff_not]
  exact ⟨fun h => ⟨h.filled, h.trimmed, h.free⟩, fun h => ⟨h.1, h.2.1, h.2.2⟩⟩

instance (text : String) : Decidable (IsWord text) := decidable_of_iff _ isWord_iff.symm

/-- A text that can stand as a value: as an argument, and not in quotes. -/
structure IsValue (text : String) : Prop where
  argument : IsArgument text.toList
  unquoted : ∀ c ∈ text.toList.head?, isQuote c = false

/-- What a text comes to as a value: the number that it writes, if this is finite, or else itself. -/
inductive Coerced (text : String) : Json → Prop where
  | number {x : Float} (read : Decimal.readFloat? text.toList = some x) (finite : x.isFinite = true) :
    Coerced text (.number (.real x))
  | string (other : ∀ x, Decimal.readFloat? text.toList = some x → x.isFinite = false) :
    Coerced text (.string text)

theorem coerced_iff {text : String} {json : Json} :
    Coerced text json ↔ optionValue text.toList = json := by
  constructor
  · intro h
    rw [optionValue]
    cases h with
    | number read finite => simp [read, finite]
    | string other =>
      split
      · rename_i x read
        simp [other x read]
      · rw [String.ofList_toList]
  · rintro rfl
    rw [optionValue]
    split
    · rename_i x read
      by_cases finite : x.isFinite = true
      · rw [if_pos finite]
        exact .number read finite
      · rw [if_neg finite, String.ofList_toList]
        refine .string fun y again => ?_
        rw [← Option.some.inj (read.symm.trans again)]
        exact eq_false_of_ne_true finite
    · rename_i none
      rw [String.ofList_toList]
      refine .string fun x read => ?_
      rw [none] at read
      cases read

/-- A key stands as it is or in quotes. -/
inductive Spelled (key : List Char) : List Char → Prop where
  | plain : Spelled key key
  | quoted {quote : Char} (hq : isQuote quote = true) : Spelled key (quote :: key ++ [quote])

/-- A pair is written as a key, a colon and a value. -/
inductive PairWritten : String × String → List Char → Prop where
  | intro {key value : String} {spelling before after : List Char}
    (spelled : Spelled key.toList spelling) (hk : Padded spelling before)
    (hv : Padded value.toList after) : PairWritten (key, value) (before ++ ':' :: after)

/-- Entries are written as their pairs between braces. -/
inductive ObjectWritten (entries : List (String × String)) (text : String) : Prop where
  | intro {pairs : List (List Char)} (written : List.Forall₂ PairWritten entries pairs)
    (padded : Padded ('{' :: [','].intercalate pairs ++ ['}']) text.toList)

namespace IsWord

variable {text : String}

theorem trim_eq (h : IsWord text) : trim text.toList = text.toList := by
  rw [← String.ofList_inj, String.ofList_toList]
  exact h.trimmed

theorem unquote_eq (h : IsWord text) : unquote text.toList = text.toList := by
  rw [unquote_eq_trim (h.free _ (by decide)) (h.free _ (by decide)), h.trim_eq]

theorem unquoted_eq (h : IsWord text) : unquoted text = text := by
  rw [unquoted, h.unquote_eq, String.ofList_toList]

theorem isQuote_eq_false (h : IsWord text) : ∀ c ∈ text.toList, isQuote c = false := by
  intro c hc
  refine Bool.eq_false_iff.2 fun quote => ?_
  obtain single | double := (Bool.or_eq_true _ _).mp quote
  · exact h.free '\'' (by decide) (of_decide_eq_true single ▸ hc)
  · exact h.free '"' (by decide) (of_decide_eq_true double ▸ hc)

theorem enclosed (h : IsWord text) : Enclosed text.toList := by
  refine enclosed_of_notMem fun c hc => h.free c ?_
  simp only [marks, List.mem_cons, List.not_mem_nil, or_false] at hc ⊢
  tauto

/-- A word can stand as a value. -/
theorem isValue (h : IsWord text) : IsValue text where
  argument := ⟨h.trim_eq, _, bare_self h.isQuote_eq_false, h.enclosed⟩
  unquoted c hc := h.isQuote_eq_false c (List.mem_of_mem_head? hc)

/-- A word opens no literal. -/
theorem parseObject?_eq_none (h : IsWord text) : parseObject? text = none := by
  have none : afterStart? ['{'] text.toList = .none := by
    rw [Option.eq_none_iff_forall_ne_some]
    intro rest opens
    have brace := afterStart?_eq_some_iff.1 opens
    exact h.free '{' (by decide) (by simp [brace])
  simp [parseObject?, optionPairs?, h.trim_eq, none]

end IsWord

section Pair

variable {key value : String} {spelling pair : List Char} {entry : String × String}

theorem isQuote_iff {c : Char} : isQuote c = true ↔ c = '\'' ∨ c = '"' := by simp [isQuote]

theorem IsValue.unquote_eq (h : IsValue value) : unquote value.toList = value.toList := by
  refine unquote_eq_self h.argument.trimmed fun c hc => ?_
  have other := h.unquoted c hc
  rwa [← Bool.not_eq_true, isQuote_iff, not_or] at other

namespace Spelled

variable (h : Spelled key.toList spelling) (hk : IsWord key)

include h hk

/-- However a key stands, it is read. -/
theorem unquote_eq : unquote spelling = key.toList := by
  cases h with
  | plain => exact hk.unquote_eq
  | quoted hq => exact unquote_quoted (isQuote_iff.1 hq) _

theorem colon_notMem : ':' ∉ spelling := by
  have none := hk.free ':' (by decide)
  cases h with
  | plain => exact none
  | @quoted quote hq =>
    have other : ':' ≠ quote := by
      rintro rfl
      cases hq
    simp [none, other]

/-- Inside quotes, a key that has none is passed over. -/
theorem steady : outside.Steady spelling := by
  cases h with
  | plain => exact hk.enclosed.steady_of_bare (bare_self hk.isQuote_eq_false) rfl
  | @quoted quote hq =>
    have run : quote ∉ key.toList := by
      intro hm
      rw [hk.isQuote_eq_false quote hm] at hq
      cases hq
    exact (by decide : Enclosed []).steady_of_bare (.quoted hq run .nil) rfl

end Spelled

namespace PairWritten

theorem colon_mem (h : PairWritten entry pair) : ':' ∈ pair := by
  cases h with
  | intro => simp

variable (h : PairWritten entry pair) (hk : IsWord entry.1) (hv : IsValue entry.2)

include h hk hv

/-- A scan is not aware of a pair. -/
theorem steady : outside.Steady pair := by
  cases h with
  | intro spelled before after =>
    have enclosed : Enclosed [':'] := by decide
    have colon := enclosed.steady (List.forall_mem_singleton.2 rfl) proper_outside
    have tail := colon.append (hv.argument.steady.of_padded proper_outside after)
    exact ((spelled.steady hk).of_padded proper_outside before).append tail

/-- A pair is read as its key and what its value comes to. -/
theorem optionPair?_eq : optionPair? (trim pair) = some (entry.1, optionValue entry.2.toList) := by
  cases h with
  | @intro key value spelling before after spelled hb ha =>
    have colon : ':' ∉ trimStart before := by
      intro hm
      obtain inside | blank := hb.mem_or_isBlank ((List.dropWhile_sublist _).subset hm)
      · exact spelled.colon_notMem hk inside
      · exact absurd blank (by decide)
    have key_eq : unquote (trimStart before) = key.toList := by
      rw [← unquote_eq_of_padded (padded_trimStart before), unquote_eq_of_padded hb,
        spelled.unquote_eq hk]
    have value_eq : unquote (trimEnd after) = value.toList := by
      rw [← unquote_eq_of_padded (padded_trimEnd after), unquote_eq_of_padded ha, hv.unquote_eq]
    rw [trim_append_cons (by decide), optionPair?, cut?_append colon]
    simp [key_eq, value_eq, hk.filled]

end PairWritten

end Pair

section Entries

variable {entries : List (String × String)} {pairs : List (List Char)} {pair : List Char}
  {text : String} (written : List.Forall₂ PairWritten entries pairs)

include written

theorem exists_entry (hp : pair ∈ pairs) : ∃ entry ∈ entries, PairWritten entry pair := by
  induction written with
  | nil => cases hp
  | cons first _ ih =>
    obtain rfl | hp := List.mem_cons.1 hp
    · exact ⟨_, List.mem_cons_self, first⟩
    · obtain ⟨entry, he, h⟩ := ih hp
      exact ⟨entry, List.mem_cons_of_mem _ he, h⟩

variable (words : ∀ entry ∈ entries, IsWord entry.1 ∧ IsValue entry.2)

include words

theorem segmented_pairs : Segmented pairs := by
  have steady : ∀ pair ∈ pairs, outside.Steady pair := by
    intro pair hp
    obtain ⟨entry, he, h⟩ := exists_entry written hp
    exact h.steady (words entry he).1 (words entry he).2
  exact ⟨fun pair hp => (steady pair hp).solid,
    fun pair hp => (steady pair (List.dropLast_subset _ hp)).kept⟩

/-- The pairs of a literal are told apart, and none is taken for a blank piece at the end. -/
theorem splitArguments_pairs (filled : entries ≠ []) :
    splitArguments ([','].intercalate pairs) = pairs.map trim := by
  have segmented := segmented_pairs written words
  have last : (pairs.map trim).getLast? ≠ some [] := by
    intro empty
    obtain ⟨pair, hp, blank⟩ := List.mem_map.1 (List.mem_of_getLast? empty)
    obtain ⟨entry, -, h⟩ := exists_entry written hp
    exact absurd (trim_eq_nil_iff.1 blank ':' h.colon_mem) (by decide)
  cases written with
  | nil => exact absurd rfl filled
  | cons _ _ =>
    rw [intercalate_singleton_cons, splitArguments, ← behindCommas, pieces_join segmented]
    exact if_neg last

/-- Every pair is read on its own. -/
theorem mapM_optionPair? :
    (pairs.map trim).mapM optionPair? =
      some (entries.map fun (key, value) => (key, optionValue value.toList)) := by
  induction written with
  | nil => rfl
  | @cons entry pair entries pairs first _ ih =>
    obtain ⟨key, value⟩ := words entry (by simp)
    have rest := ih fun entry he => words entry (List.mem_cons_of_mem _ he)
    rw [List.map_cons, List.mapM_cons, first.optionPair?_eq key value, rest]
    rfl

end Entries

section Literal

variable {entries : List (String × String)} {text : String}

/-- What is written as the pairs of words and values is read as these. -/
theorem ObjectWritten.parseObject?_eq (h : ObjectWritten entries text) (filled : entries ≠ [])
    (words : ∀ entry ∈ entries, IsWord entry.1 ∧ IsValue entry.2) :
    parseObject? text =
      some (KeyedList.ofList (entries.map fun (key, value) => (key, optionValue value.toList))) := by
  obtain @⟨pairs, written, padded⟩ := h
  have colon : ([','].intercalate pairs).contains ':' = true := by
    rw [List.contains_iff_mem]
    cases written with
    | nil => exact absurd rfl filled
    | cons first _ =>
      rw [intercalate_singleton_cons]
      exact List.mem_append_left _ first.colon_mem
  have opened : afterStart? ['{'] ('{' :: [','].intercalate pairs ++ ['}']) =
      some ([','].intercalate pairs ++ ['}']) := afterStart?_eq_some_iff.2 rfl
  have closed : beforeLast? '}' ([','].intercalate pairs ++ ['}']) =
      some ([','].intercalate pairs) := beforeLast?_eq_some_iff.2 rfl
  rw [parseObject?, optionPairs?, trim_eq_of_padded padded, trim_eq_self (by decide) (by decide)]
  simp only [opened, closed, Option.bind_eq_bind, Option.bind_some, colon, if_true,
    splitArguments_pairs written words filled, mapM_optionPair? written words, Option.map_some]

/-- An object literal is read as the map of each key to what its last value comes to, however blanks and
quotes stand in it. -/
theorem objectLiteral_read_back (filled : entries ≠ [])
    (words : ∀ entry ∈ entries, IsWord entry.1 ∧ IsValue entry.2) (h : ObjectWritten entries text) :
    ∃ options, parseObject? text = some options ∧ KeyedList.Sorted options ∧
      ∀ key json, KeyedList.get? options key = some json ↔
        ∃ before value after, entries = before ++ (key, value) :: after ∧
          (∀ entry ∈ after, entry.1 ≠ key) ∧ Coerced value json := by
  refine ⟨_, h.parseObject?_eq filled words, KeyedList.sorted_ofList _, fun key json => ?_⟩
  rw [KeyedList.get?_ofList_eq_some_iff]
  constructor
  · rintro ⟨front, back, whole, fresh⟩
    obtain ⟨before, rest, rfl, -, tail⟩ := List.map_eq_append_iff.1 whole
    obtain ⟨⟨k, value⟩, after, rfl, same, rfl⟩ := List.map_eq_cons_iff.1 tail
    obtain ⟨rfl, rfl⟩ := Prod.mk.inj same
    exact ⟨before, value, after, rfl, fun entry he => fresh _ (List.mem_map_of_mem he),
      coerced_iff.2 rfl⟩
  · rintro ⟨before, value, after, rfl, fresh, coerced⟩
    obtain rfl := coerced_iff.1 coerced
    refine ⟨before.map _, after.map _, by rw [List.map_append, List.map_cons], ?_⟩
    intro pair hp
    obtain ⟨entry, he, rfl⟩ := List.mem_map.1 hp
    exact fresh entry he

theorem objectLiteral_read_back_nested :
    let text :=
      "\t\x7b'tone':old ,src : f('a, b:')\n, tone:\x7b x: 1, y: (2) \x7d ,\"size\" : 2.5\x7d "
    ∃ options, parseObject? text = some options ∧
      KeyedList.get? options "src" = some (.string "f('a, b:')") ∧
        KeyedList.get? options "tone" = some (.string "\x7b x: 1, y: (2) \x7d") ∧
          KeyedList.get? options "size" = some (.number (.real 2.5)) := by
  intro text
  let entries :=
    [("tone", "old"), ("src", "f('a, b:')"), ("tone", "\x7b x: 1, y: (2) \x7d"), ("size", "2.5")]
  have run : '\'' ∉ "a, b:".toList := by decide
  have call : Bare "f('a, b:')".toList "f()".toList :=
    .char rfl (.char rfl (.quoted rfl run (.char rfl .nil)))
  have object : Bare "\x7b x: 1, y: (2) \x7d".toList "\x7b x: 1, y: (2) \x7d".toList :=
    bare_self (isQuote_eq_false_of_any (by decide))
  have words : ∀ entry ∈ entries, IsWord entry.1 ∧ IsValue entry.2 := by
    simp only [entries, List.forall_mem_cons]
    exact ⟨⟨by decide, IsWord.isValue (by decide)⟩,
      ⟨by decide, ⟨by decide, _, call, by decide⟩, by rintro c ⟨⟩; rfl⟩,
      ⟨by decide, ⟨by decide, _, object, by decide⟩, by rintro c ⟨⟩; rfl⟩,
      ⟨by decide, IsWord.isValue (by decide)⟩, by simp⟩
  have single : Spelled "tone".toList "'tone'".toList := .quoted rfl
  have double : Spelled "size".toList "\"size\"".toList := .quoted rfl
  have padded (before inner after : String) (hb : before.toList.all isBlank = true)
      (ha : after.toList.all isBlank = true) :
      Padded inner.toList (before ++ inner ++ after).toList :=
    ⟨before.toList, after.toList, by simp, List.all_eq_true.1 hb, List.all_eq_true.1 ha⟩
  have written : List.Forall₂ PairWritten entries
      ["'tone':old ".toList, "src : f('a, b:')\n".toList, " tone:\x7b x: 1, y: (2) \x7d ".toList,
        "\"size\" : 2.5".toList] :=
    .cons (.intro single (padded "" "'tone'" "" rfl rfl) (padded "" "old" " " rfl rfl)) <|
      .cons (.intro .plain (padded "" "src" " " rfl rfl) (padded " " "f('a, b:')" "\n" rfl rfl)) <|
      .cons (.intro .plain (padded " " "tone" "" rfl rfl)
        (padded "" "\x7b x: 1, y: (2) \x7d" " " rfl rfl)) <|
      .cons (.intro double (padded "" "\"size\"" " " rfl rfl) (padded " " "2.5" "" rfl rfl)) .nil
  have literal : ObjectWritten entries text :=
    ⟨written, ['\t'], [' '], by decide, List.forall_mem_singleton.2 rfl,
      List.forall_mem_singleton.2 rfl⟩
  obtain ⟨options, read, -, found⟩ := objectLiteral_read_back (by simp [entries]) words literal
  refine ⟨options, read, (found _ _).2 ?_, (found _ _).2 ?_, (found _ _).2 ?_⟩
  · refine ⟨entries.take 1, "f('a, b:')", entries.drop 2, rfl, by decide, coerced_iff.2 ?_⟩
    decide
  · refine ⟨entries.take 2, "\x7b x: 1, y: (2) \x7d", entries.drop 3, rfl, by decide, coerced_iff.2 ?_⟩
    decide
  · refine ⟨entries.take 3, "2.5", [], rfl, by decide, coerced_iff.2 ?_⟩
    decide

end Literal

section Words

variable {entries : List (String × String)}

/-- A key and its value, as they stand in a literal. -/
def pairText (entry : String × String) : String := entry.1 ++ ": " ++ entry.2

/-- The object literal of some entries. -/
def objectText (entries : List (String × String)) : String :=
  "\x7b " ++ ", ".intercalate (entries.map pairText) ++ " \x7d"

example : objectText [("hue", "20"), ("chroma", "-.1")] = "\x7b hue: 20, chroma: -.1 \x7d" := rfl

/-- Blanks before and behind a literal with a blank behind each comma make it one of padded pairs. -/
theorem exists_pairs_objectText (filled : entries ≠ []) :
    ∃ pairs, List.Forall₂ PairWritten entries pairs ∧
      ' ' :: (", ".toList.intercalate (entries.map fun entry => (pairText entry).toList) ++ [' ']) =
        [','].intercalate pairs := by
  have blank {c : Char} (hc : c ∈ [' ']) : isBlank c = true := by
    obtain rfl := List.mem_singleton.1 hc
    decide
  have front (s : List Char) : Padded s (' ' :: s) := ⟨[' '], [], by simp, fun _ => blank, by simp⟩
  have back (s : List Char) : Padded s (s ++ [' ']) := ⟨[], [' '], by simp, by simp, fun _ => blank⟩
  have pair {key value : String} {after : List Char} (h : Padded value.toList after) :
      PairWritten (key, value) (' ' :: key.toList ++ ':' :: after) := .intro .plain (front _) h
  induction entries with
  | nil => exact absurd rfl filled
  | cons entry others ih =>
    obtain ⟨key, value⟩ := entry
    cases others with
    | nil =>
      refine ⟨[' ' :: key.toList ++ ':' :: (' ' :: value.toList ++ [' '])], ?_, ?_⟩
      · exact .cons (pair ((front _).trans (back _))) .nil
      · simp [pairText]
    | cons second others =>
      obtain ⟨pairs, written, joined⟩ := ih (by simp)
      refine ⟨(' ' :: key.toList ++ ':' :: ' ' :: value.toList) :: pairs,
        .cons (pair (front _)) written, ?_⟩
      cases written with
      | cons _ _ =>
        rw [List.intercalate_cons_cons, ← joined, List.map_cons, List.map_cons,
          List.intercalate_cons_cons]
        simp [pairText]

/-- The literal of some words is read as these. -/
theorem parseObject?_objectText (filled : entries ≠ [])
    (words : ∀ entry ∈ entries, IsWord entry.1 ∧ IsWord entry.2) :
    parseObject? (objectText entries) =
      some (KeyedList.ofList (entries.map fun (key, value) => (key, optionValue value.toList))) := by
  obtain ⟨pairs, written, joined⟩ := exists_pairs_objectText filled
  have text : (objectText entries).toList = '{' :: [','].intercalate pairs ++ ['}'] := by
    rw [← joined]
    simp [objectText, String.toList_intercalate, Function.comp_def]
  have written : ObjectWritten entries (objectText entries) := ⟨written, by rw [text]; exact .refl _⟩
  exact written.parseObject?_eq filled fun entry he => (words entry he).imp_right IsWord.isValue

end Words

end DesignTokens.Expression
