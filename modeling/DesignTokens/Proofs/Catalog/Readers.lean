import DesignTokens.Proofs.Catalog.Options
import DesignTokens.Proofs.Dimension.Pattern

/-!
# One number from every reader

A number is read in two ways: a whole text as a double, and the front of a text as the number of a
dimension. The two agree on the numbers without a unit. So it makes no difference whether a function finds
a number at a position or in its options, and the lenient reader of dimensions has nothing but zero to fall
back on.
-/

namespace DesignTokens

open Text

namespace Expression

variable {n : Nesting} {s body pair arg : List Char} {key text : String} {value : Json}
variable {options : KeyedList Json}

theorem infix_of_mem_pieces (h : arg ∈ pieces n s) : arg <:+: s := by
  obtain ⟨first, others, split, rfl⟩ := exists_pieces_eq_cons n s
  rw [split] at h
  rcases List.mem_cons.1 h with rfl | h
  · exact (List.prefix_append _ _).isInfix
  · obtain ⟨before, after, rfl⟩ := List.append_of_mem h
    exact ⟨first ++ behindCommas before ++ [','], behindCommas after, by simp [behindCommas]⟩

theorem infix_trim (s : List Char) : trim s <:+: s := by
  obtain ⟨before, after, whole, -, -⟩ := padded_trim s
  exact ⟨before, after, whole.symm⟩

theorem infix_of_mem_splitArguments (h : arg ∈ splitArguments body) : arg <:+: body := by
  have start := splitArguments_prefix body
  obtain ⟨piece, hp, rfl⟩ := List.mem_map.1 (start.subset h)
  exact (infix_trim piece).trans (infix_of_mem_pieces hp)

/-- A pair that is read is a key and a value with a colon between them. -/
theorem optionPair?_sound (h : optionPair? pair = some (key, value)) :
    ∃ name raw, pair = name ++ ':' :: raw ∧ unquote name = key.toList ∧
      value = optionValue (unquote raw) := by
  rw [optionPair?] at h
  split at h
  · cases h
  · rename_i name raw cut
    dsimp only at h
    split at h
    · cases h
    · obtain ⟨rfl, rfl⟩ := Prod.mk.inj (Option.some.inj h)
      exact ⟨name, raw, eq_of_cut? cut, String.toList_ofList.symm, rfl⟩

theorem exists_pair_of_mapM {pairs : List (List Char)} {entries : List (String × Json)}
    (h : pairs.mapM optionPair? = some entries) :
    ∀ entry ∈ entries, ∃ pair ∈ pairs, optionPair? pair = some entry := by
  induction pairs generalizing entries with
  | nil =>
    obtain rfl : [] = entries := by simpa using h
    simp
  | cons pair pairs ih =>
    simp only [List.mapM_cons, Option.bind_eq_bind, Option.bind_eq_some_iff, Option.pure_def,
      Option.some.injEq] at h
    obtain ⟨first, read, others, rest, rfl⟩ := h
    refine List.forall_mem_cons.2 ⟨⟨pair, by simp, read⟩, fun entry he => ?_⟩
    obtain ⟨other, mem, same⟩ := ih rest entry he
    exact ⟨other, List.mem_cons_of_mem _ mem, same⟩

/-- An option stands in the literal that it is read from. -/
theorem exists_raw_of_get? (parsed : parseObject? text = some options)
    (found : KeyedList.get? options key = some value) :
    ∃ name raw, name ++ ':' :: raw <:+: text.toList ∧ unquote name = key.toList ∧
      value = optionValue (unquote raw) := by
  rw [parseObject?, Option.map_eq_some_iff] at parsed
  obtain ⟨pairs, read, rfl⟩ := parsed
  obtain ⟨before, after, rfl, -⟩ := KeyedList.get?_ofList_eq_some_iff.1 found
  simp only [optionPairs?, Option.bind_eq_bind, Option.bind_eq_some_iff,
    Option.ite_none_right_eq_some] at read
  obtain ⟨rest, opened, body, closed, -, read⟩ := read
  have inner : body <:+: text.toList := by
    have whole : trim text.toList = ['{'] ++ (body ++ ['}']) := by
      rw [afterStart?_eq_some_iff.1 opened, beforeLast?_eq_some_iff.1 closed]
    exact List.IsInfix.trans ⟨['{'], ['}'], by simp [whole]⟩ (infix_trim _)
  obtain ⟨pair, hp, entry⟩ := exists_pair_of_mapM read (key, value) (by simp)
  obtain ⟨name, raw, rfl, named, coerced⟩ := optionPair?_sound entry
  exact ⟨name, raw, (infix_of_mem_splitArguments hp).trans inner, named, coerced⟩

end Expression

open Decimal Dimension Expression

namespace Arguments

variable {args : Arguments} {position : Nat} {text : String}

/-- An argument that is not empty is read without its quotes. -/
theorem number_eq_readNumber (given : args.texts[position]? = some text) (filled : unquoted text ≠ "")
    (name : String) : args.number position name = readNumber (unquoted text) := by
  have found : args.optional? position = some (unquoted text) := by simp [optional?, given, filled]
  generalize unquoted text = inner at found ⊢
  rw [number, required, found]
  rfl

end Arguments

/-- The two readers of numbers agree, whatever other digits the pattern of a dimension admits.

A double is read from the texts of the grammar. A dimension is read from the texts that fit the pattern, in
the one way they do, with a number that is read as a finite double. On a text without blanks around it the
finite doubles are the dimensions without a unit; and so what is no dimension is taken for zero by the
lenient reader, and a number is the same in an option and at a position. -/
theorem number_readers_agree {digit : Char → Bool} (hd : DigitClass digit) :
    (∀ s x, readFloat? s = some x ↔ FloatText s x) ∧
      (∀ s number unit number' unit', Captures digit s number unit →
        Captures digit s number' unit' → number = number' ∧ unit = unit') ∧
      (∀ text d, parse? text = some d ↔ ∃ number unit x,
        Captures digit (trim text.toList) number unit ∧ readFloat? number = some x ∧
          x.isFinite = true ∧ of x (String.ofList unit) = d) ∧
      (∀ text x, trim text.toList = text.toList →
        ((readFloat? text.toList = some x ∧ x.isFinite = true) ↔ parse? text = some (unitless x))) ∧
      (∀ text, Dimension.parse text = (parse? text).getD (unitless 0)) ∧
      (∀ text, Arguments.numberOfOption (optionValue text.toList) = Arguments.readNumber text) ∧
      ∀ literal options key value, parseObject? literal = some options →
        KeyedList.get? options key = some value →
          ∃ name raw, name ++ ':' :: raw <:+: literal.toList ∧ unquote name = key.toList ∧
            value = optionValue (unquote raw) ∧
            ∀ (args : Arguments) position argument, args.texts[position]? = some (String.ofList raw) →
              unquote raw ≠ [] → args.number position argument = Arguments.numberOfOption value := by
  refine ⟨fun s x => readFloat?_eq_some_iff, fun s number unit number' unit' h h' => h.unique hd h',
    fun text d => parse?_eq_some_iff hd, fun text x => readFloat?_finite_iff, parse_eq_getD,
    Arguments.numberOfOption_optionValue, ?_⟩
  intro literal options key value parsed found
  obtain ⟨name, raw, stands, named, rfl⟩ := exists_raw_of_get? parsed found
  refine ⟨name, raw, stands, named, rfl, fun args position argument given filled => ?_⟩
  have whole : unquoted (String.ofList raw) = String.ofList (unquote raw) := by
    rw [unquoted, String.toList_ofList]
  have nonempty : unquoted (String.ofList raw) ≠ "" := by
    rw [whole]
    simpa using filled
  have same := Arguments.numberOfOption_optionValue (String.ofList (unquote raw))
  rw [String.toList_ofList] at same
  rw [Arguments.number_eq_readNumber given nonempty, whole, same]

/-- The digits of ASCII and those of Arabic. -/
def arabicDigit (c : Char) : Bool := isDigit c || (0x660 ≤ c.toNat && c.toNat ≤ 0x669)

theorem digitClass_arabicDigit : DigitClass arabicDigit where
  ascii c hc := by simp [arabicDigit, hc]
  apart c hc := by
    have range : c.toNat ≤ 57 ∧ 48 ≤ c.toNat ∨ 0x660 ≤ c.toNat := by
      rcases (Bool.or_eq_true _ _).mp hc with digit | other
      · have := isDigit_iff.1 digit
        omega
      · simp only [Bool.and_eq_true, decide_eq_true_eq] at other
        omega
    constructor
    · refine Bool.eq_false_iff.2 fun letter => ?_
      have := isLetter_iff.1 letter
      omega
    · rintro rfl
      simp at range

/-- An Arabic digit fits the pattern and is no number; an exponent may be too large for any double; and a
number without either is the same for both readers and in an option. -/
theorem number_readers_agree_arabic :
    DigitClass arabicDigit ∧
      (Captures arabicDigit (trim "\u0663px".toList) ['\u0663'] "px".toList ∧
        parse? "\u0663px" = none) ∧
      Dimension.parse "1e400" = unitless 0 ∧
      ∃ x, parse? "-1e2" = some (unitless x) ∧ Arguments.readNumber "-1e2" = .ok x ∧
        Arguments.numberOfOption (optionValue "-1e2".toList) = .ok x := by
  obtain ⟨-, unique, pattern, agree, lenient, option, -⟩ := number_readers_agree digitClass_arabicDigit
  have three : NumeralText arabicDigit ⟨false, ['\u0663'], [], 0⟩ ['\u0663'] :=
    .intro .absent (.whole (List.cons_ne_nil _ _) (List.forall_mem_singleton.2 (by decide))) .absent
  have fits : Captures arabicDigit (trim "\u0663px".toList) ['\u0663'] "px".toList :=
    { text := by decide
      numeral := ⟨_, three⟩
      unit := by decide }
  have strict : parse? "1e400" = none := by decide +kernel
  obtain ⟨x, read, finite⟩ : ∃ x, readFloat? "-1e2".toList = some x ∧ x.isFinite = true :=
    ⟨_, rfl, by decide +kernel⟩
  have bare : parse? "-1e2" = some (unitless x) := (agree _ x (by decide)).1 ⟨read, finite⟩
  have number : Arguments.readNumber "-1e2" = .ok x := by
    rw [Arguments.readNumber, bare]
    rfl
  refine ⟨digitClass_arabicDigit, ⟨fits, ?_⟩, by rw [lenient, strict]; rfl, x, bare, number, ?_⟩
  · refine Option.eq_none_iff_forall_ne_some.2 fun d parsed => ?_
    obtain ⟨_, _, y, captured, read, -⟩ := (pattern _ d).1 parsed
    obtain ⟨rfl, rfl⟩ := unique _ _ _ _ _ captured fits
    cases read
  · rw [option, number]

end DesignTokens
