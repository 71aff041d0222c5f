import DesignTokens.Expression.Call
import DesignTokens.Proofs.Text.Padding

/-!
# Texts that are no calls

A call begins with the first letter of a name and holds an opening parenthesis. So a text without a
parenthesis is no call, and neither is one whose first character that is not blank cannot begin a
name. A text is read as a call exactly if it is one.
-/

namespace DesignTokens

open Text

namespace Call

variable {s name : List Char}

theorem isNameChar_of_isNameStart {c : Char} (h : isNameStart c = true) : isNameChar c = true := by
  simp only [isNameStart, isNameChar, Char.isAlphanum, Bool.or_eq_true] at h ⊢
  rcases h with letter | underscore
  · exact .inl (.inl (.inl letter))
  · exact .inl (.inr underscore)

theorem isNameChar_of_isName (h : isName name = true) : ∀ c ∈ name, isNameChar c = true := by
  cases name with
  | nil => simp
  | cons first rest =>
    rw [isName, Bool.and_eq_true, List.all_eq_true] at h
    rintro c hc
    rcases List.mem_cons.1 hc with rfl | hc
    · exact isNameChar_of_isNameStart h.1
    · exact h.2 c hc

/-- A call holds an opening parenthesis. -/
theorem span?_eq_none_of_notMem (h : '(' ∉ s) : span? s = none := by
  rw [Option.eq_none_iff_forall_ne_some]
  rintro ⟨name, body⟩ hs
  obtain ⟨rfl, -⟩ := eq_of_span? hs
  simp at h

/-- A call begins with the first letter of a name. -/
theorem span?_eq_none_of_not_isNameStart {first : Char} {rest : List Char}
    (h : isNameStart first = false) : span? (first :: rest) = none := by
  rw [Option.eq_none_iff_forall_ne_some]
  rintro ⟨name, body⟩ hs
  obtain ⟨spelled, named⟩ := eq_of_span? hs
  cases name with
  | nil => simp [isName] at named
  | cons c name =>
    obtain ⟨rfl, -⟩ := List.cons.inj spelled
    simp [isName, h] at named

theorem split?_eq_none_iff : split? s = none ↔ span? (trim s) = none := Option.map_eq_none_iff

end Call

section IsCall

variable {inner text : List Char}

/-- A text without an opening parenthesis is no call, with any blanks around it. -/
theorem isCall_of_notMem (h : '(' ∉ inner) (hp : Padded inner text) :
    isCall (String.ofList text) = false := by
  have hs : '(' ∉ text := by
    intro hm
    rcases hp.mem_or_isBlank hm with hm | hb
    · exact h hm
    · exact absurd hb (by decide)
  have ht : '(' ∉ trim text := by
    obtain ⟨before, after, he, -, -⟩ := padded_trim text
    intro hm
    apply hs
    rw [he]
    simp [hm]
  rw [isCall, String.toList_ofList, Call.span?_eq_none_of_notMem ht]
  rfl

/-- A text whose first character cannot begin a name is no call, with any blanks around it. -/
theorem isCall_of_not_isNameStart {first : Char} {rest : List Char}
    (hb : isBlank first = false) (hn : Call.isNameStart first = false)
    (hp : Padded (first :: rest) text) : isCall (String.ofList text) = false := by
  obtain ⟨others, ht⟩ := exists_trim_eq_cons hb hp
  rw [isCall, String.toList_ofList, ht, Call.span?_eq_none_of_not_isNameStart hn]
  rfl

end IsCall

namespace Expression

variable {text : String}

/-- A text that is no call is read as a literal. -/
theorem parse_of_not_isCall (h : isCall text = false) : parse text = .literal text := by
  have hs : Call.split? text.toList = none := by
    rw [Call.split?_eq_none_iff]
    simpa [isCall] using h
  rw [parse, ofChars]
  split
  · rw [String.ofList_toList]
  · rename_i hc
    simp [hs] at hc

/-- A call is read as the call of what its arguments are read as. -/
theorem parse_of_call {call : Call} (h : Call.parse? text = some call) :
    parse text = .call text call.name (call.arguments.map parse) := by
  obtain ⟨⟨chars, pieces⟩, hs, rfl⟩ := Option.map_eq_some_iff.1 h
  have arguments : pieces.map ofChars = (pieces.map String.ofList).map parse := by
    rw [List.map_map]
    apply List.map_congr_left
    intro piece _
    rw [Function.comp_apply, parse, String.toList_ofList]
  rw [parse, ofChars]
  split
  · rename_i hc
    simp [hs] at hc
  · rename_i chars' pieces' hc
    obtain ⟨rfl, rfl⟩ := by simpa [hs] using hc
    rw [String.ofList_toList, List.map_attach_eq_pmap, List.pmap_eq_map, arguments]

/-- A call with arguments that are no calls is read as a call of literals. -/
theorem parse_of_parse? {name : String} {args : List String}
    (h : Call.parse? text = some ⟨name, args⟩) (ha : ∀ arg ∈ args, isCall arg = false) :
    parse text = .call text name (args.map .literal) := by
  rw [parse_of_call h]
  congr 1
  apply List.map_congr_left
  intro arg hm
  exact parse_of_not_isCall (ha arg hm)

theorem parse?_eq_none_iff : Call.parse? text = none ↔ isCall text = false := by
  rw [Call.parse?, Option.map_eq_none_iff, Call.split?_eq_none_iff]
  simp [isCall]

/-- An expression is the reading of its own text. -/
@[simp] theorem source_parse (text : String) : (parse text).source = text := by
  cases h : Call.parse? text with
  | none =>
    rw [parse_of_not_isCall (parse?_eq_none_iff.1 h)]
    rfl
  | some call =>
    rw [parse_of_call h]
    rfl

end Expression

end DesignTokens
