import DesignTokens.Proofs.Expression.Call
import Mathlib.Algebra.GroupWithZero.Nat
import Mathlib.Algebra.Order.BigOperators.Group.List
import Mathlib.Algebra.Order.Group.Nat
import Mathlib.Logic.Relation

/-!
# Signatures of nested calls

The signature of a call is its text written anew: arguments without blanks around them, joined by a
comma and a blank, and without an empty last argument. It may be longer or shorter than the text, but
it has as many opening parentheses, since nothing but commas and blanks is lost or put in.

An argument of a call is shorter than the call and has fewer opening parentheses. So reading a text at
all levels ends, and no call inside a call has the signature of the call around it.
-/

namespace DesignTokens.Expression

open Text Relation

/-- How many opening parentheses there are in some characters. -/
def parens (s : List Char) : Nat := s.count '('

@[simp] theorem parens_append (s t : List Char) : parens (s ++ t) = parens s + parens t :=
  List.count_append

theorem parens_cons (c : Char) (s : List Char) :
    parens (c :: s) = parens s + if c = '(' then 1 else 0 := by
  simp [parens, List.count_cons]

theorem parens_eq_zero {s : List Char} (h : '(' ∉ s) : parens s = 0 := List.count_eq_zero.2 h

/-- Blanks around a text add no parentheses. -/
theorem parens_of_padded {inner text : List Char} (h : Padded inner text) :
    parens text = parens inner := by
  obtain ⟨before, after, rfl, hb, ha⟩ := h
  have blank {s : List Char} (hs : ∀ c ∈ s, isBlank c) : parens s = 0 := by
    apply parens_eq_zero
    intro hm
    exact absurd (hs _ hm) (by decide)
  simp [blank hb, blank ha]

theorem parens_trim (s : List Char) : parens (trim s) = parens s :=
  (parens_of_padded (padded_trim s)).symm

/-- Cutting a text at commas keeps its parentheses. -/
theorem parens_pieces (n : Nesting) (s : List Char) :
    ((pieces n s).map parens).sum = parens s := by
  induction s generalizing n with
  | nil => rfl
  | cons c rest ih =>
    unfold pieces
    split
    · rename_i hc
      simp only [Bool.and_eq_true, decide_eq_true_eq] at hc
      obtain rfl := hc.1
      rw [List.map_cons, List.sum_cons, ih n]
      simp [parens]
    · have hr := ih (n.feed c)
      split
      · rename_i hp
        rw [hp, List.map_nil, List.sum_nil] at hr
        rw [List.map_singleton, List.sum_singleton, parens_cons, parens_cons, ← hr]
        rfl
      · rename_i first others hp
        rw [hp, List.map_cons, List.sum_cons] at hr
        rw [List.map_cons, List.sum_cons, parens_cons, parens_cons, ← hr]
        omega

theorem parens_splitArguments (body : List Char) :
    ((splitArguments body).map parens).sum = parens body := by
  have trimmed : (((pieces .outside body).map trim).map parens).sum = parens body := by
    rw [List.map_map, ← parens_pieces .outside body]
    exact congrArg List.sum (List.map_congr_left fun piece _ => parens_trim piece)
  unfold splitArguments
  dsimp only
  split
  · rename_i hl
    -- the last argument is empty
    obtain ⟨args, ha⟩ := List.getLast?_eq_some_iff.1 hl
    rw [ha] at trimmed ⊢
    simpa [parens] using trimmed
  · exact trimmed

/-- The parenthesis that opens a call is the only one outside its body. -/
theorem parens_span? {s name body : List Char} (h : Call.span? s = some (name, body)) :
    '(' ∉ name ∧ parens s = parens body + 1 := by
  obtain ⟨rfl, named⟩ := Call.eq_of_span? h
  have none : '(' ∉ name := by
    intro hm
    exact absurd (Call.isNameChar_of_isName named _ hm) (by decide)
  refine ⟨none, ?_⟩
  rw [parens_append, parens_append, parens_cons, parens_eq_zero none]
  simp [parens]

/-- Joining texts by commas and blanks puts no parentheses in. -/
theorem parens_intercalate (texts : List (List Char)) :
    parens (", ".toList.intercalate texts) = (texts.map parens).sum := by
  induction texts with
  | nil => rfl
  | cons first others ih =>
    cases others with
    | nil => simp
    | cons second others =>
      have comma : parens ", ".toList = 0 := rfl
      rw [List.intercalate_cons_cons, parens_append, parens_append, ih, comma]
      simp

theorem toList_signature (call : Call) :
    call.signature.toList =
      call.name.toList ++ '(' :: ", ".toList.intercalate (call.arguments.map String.toList) ++
        [')'] := by
  simp [Call.signature]

section Call

variable {text : String} {call : Call}

/-- A call has the parentheses of its arguments, and the one that opens it. -/
theorem parens_of_call (h : Call.parse? text = some call) :
    '(' ∉ call.name.toList ∧
      parens text.toList = (call.arguments.map fun arg => parens arg.toList).sum + 1 := by
  obtain ⟨⟨name, args⟩, hs, rfl⟩ := Option.map_eq_some_iff.1 h
  obtain ⟨⟨name', body⟩, hb, he⟩ := Option.map_eq_some_iff.1 hs
  obtain ⟨rfl, rfl⟩ := by simpa using he
  obtain ⟨hn, hp⟩ := parens_span? hb
  refine ⟨by simpa using hn, ?_⟩
  rw [← parens_trim, hp, ← parens_splitArguments, List.map_map]
  simp [Function.comp_def]

/-- The signature of a call has as many opening parentheses as its text. -/
theorem parens_signature (h : Call.parse? text = some call) :
    parens call.signature.toList = parens text.toList := by
  obtain ⟨hn, hp⟩ := parens_of_call h
  rw [toList_signature, hp, parens_append, parens_append, parens_cons, parens_intercalate,
    parens_eq_zero hn, List.map_map]
  simp [parens, Function.comp_def]

end Call

/-- One text is an argument of the call that another text is. -/
def ArgumentOf (arg text : String) : Prop :=
  ∃ call, Call.parse? text = some call ∧ arg ∈ call.arguments

/-- One text stands inside the call that another text is: as an argument of it, or inside one. -/
def Inside : String → String → Prop := TransGen ArgumentOf

variable {arg inner text : String}

namespace ArgumentOf

/-- An argument is shorter than its call. -/
theorem length_lt (h : ArgumentOf arg text) : arg.length < text.length := by
  obtain ⟨call, hc, ha⟩ := h
  obtain ⟨⟨name, args⟩, hs, rfl⟩ := Option.map_eq_some_iff.1 hc
  obtain ⟨piece, hp, rfl⟩ := List.mem_map.1 ha
  rw [← String.length_toList, ← String.length_toList, String.toList_ofList]
  exact Call.length_of_mem_split? hs hp

/-- An argument has fewer opening parentheses than its call. -/
theorem parens_lt (h : ArgumentOf arg text) : parens arg.toList < parens text.toList := by
  obtain ⟨call, hc, ha⟩ := h
  obtain ⟨-, hp⟩ := parens_of_call hc
  have hm : parens arg.toList ∈ call.arguments.map fun arg => parens arg.toList :=
    List.mem_map.2 ⟨arg, ha, rfl⟩
  have := List.le_sum_of_mem hm
  omega

end ArgumentOf

/-- Reading the arguments of calls, and theirs in turn, ends. -/
theorem ArgumentOf.wellFounded : WellFounded ArgumentOf :=
  Subrelation.wf (r := InvImage (· < ·) String.length) (fun h => h.length_lt)
    (InvImage.wf _ Nat.lt_wfRel.wf)

/-- Induction along the levels of a text: it may be no call, or a call of its arguments. -/
theorem argument_induction {P : String → Prop}
    (literal : ∀ text, Call.parse? text = none → P text)
    (call : ∀ text call, Call.parse? text = some call → (∀ arg ∈ call.arguments, P arg) → P text)
    (text : String) : P text := by
  induction text using ArgumentOf.wellFounded.induction with
  | _ text ih =>
    cases h : Call.parse? text with
    | none => exact literal text h
    | some c =>
      apply call text c h
      intro arg ha
      exact ih arg ⟨c, h, ha⟩

namespace Inside

theorem length_lt (h : Inside inner text) : inner.length < text.length := by
  induction h with
  | single h => exact h.length_lt
  | tail _ h ih => exact ih.trans h.length_lt

theorem parens_lt (h : Inside inner text) : parens inner.toList < parens text.toList := by
  induction h with
  | single h => exact h.parens_lt
  | tail _ h ih => exact ih.trans h.parens_lt

/-- A call inside a call has another signature. -/
theorem signature_ne {call other : Call} (h : Inside inner text)
    (hi : Call.parse? inner = some other) (ht : Call.parse? text = some call) :
    other.signature ≠ call.signature := by
  intro he
  have fewer := h.parens_lt
  rw [← parens_signature hi, ← parens_signature ht, he] at fewer
  exact Nat.lt_irrefl _ fewer

end Inside

end DesignTokens.Expression
