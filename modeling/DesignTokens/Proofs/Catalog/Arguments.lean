import DesignTokens.Catalog.Arguments
import DesignTokens.Proofs.Color.Notation
import DesignTokens.Proofs.Dimension

/-!
# What is read from arguments

`Yields x P` says that `x`, if it does not fail, computes something with the property `P`. It is proved
along the computation: of each step, and from that of the steps in a row.

An argument that writes a color or a dimension is read as this color or dimension, at any position and
under any name.
-/

namespace DesignTokens

/-- Whatever is computed has the property `P`; nothing is said of a failure. -/
def Yields {ε α : Type} (x : Except ε α) (P : α → Prop) : Prop := ∀ a, x = .ok a → P a

namespace Yields

variable {ε α β : Type} {x : Except ε α} {P Q : α → Prop} {R : β → Prop}

theorem ok {a : α} (h : P a) : Yields (.ok a : Except ε α) P := by
  rintro _ ⟨⟩
  exact h

theorem error {e : ε} : Yields (.error e) P := nofun

theorem any : Yields x fun _ => True := fun _ _ => trivial

theorem self (x : Except ε α) : Yields x fun a => x = .ok a := fun _ h => h

theorem mono (h : Yields x Q) (imp : ∀ a, Q a → P a) : Yields x P := fun a ha => imp a (h a ha)

theorem bind {f : α → Except ε β} (hx : Yields x Q) (hf : ∀ a, Q a → Yields (f a) R) :
    Yields (x >>= f) R := by
  intro b hb
  cases x with
  | error e => cases hb
  | ok a => exact hf a (hx a rfl) b hb

/-- What every step keeps, the run keeps. -/
theorem foldlM {f : α → β → Except ε α} {a : α} (l : List β) (init : P a)
    (step : ∀ a, ∀ b ∈ l, P a → Yields (f a b) P) : Yields (l.foldlM f a) P := by
  induction l generalizing a with
  | nil => exact ok init
  | cons b l ih =>
    rw [List.foldlM_cons]
    exact bind (step a b (by simp) init) fun _ kept =>
      ih kept fun a b mem => step a b (List.mem_cons_of_mem _ mem)

end Yields

/-- Nothing is computed. -/
abbrev Fails {ε α : Type} (x : Except ε α) : Prop := Yields x fun _ => False

namespace Fails

variable {ε α β : Type} {x : Except ε α} {f : α → Except ε β}

theorem exists_error (h : Fails x) : ∃ e, x = .error e := by
  cases x with
  | error e => exact ⟨e, rfl⟩
  | ok a => exact (h a rfl).elim

theorem bind (h : Fails x) : Fails (x >>= f) := Yields.bind h fun _ => False.elim

theorem bind_right (h : ∀ a, Fails (f a)) : Fails (x >>= f) := Yields.bind .any fun a _ => h a

end Fails

namespace Arguments

open Text

variable {args : Arguments} {position : Nat} {text name : String} {c : Rgba} {d : Dimension}

theorem optional?_eq (h : args.texts[position]? = some text) (filled : unquoted text ≠ "") :
    args.optional? position = some (unquoted text) := by
  rw [optional?, h, Option.map_some, Option.filter_some, if_pos (by simpa using filled)]

/-- An argument that writes a color is read as this color. -/
theorem color_eq_of_parse? (h : args.texts[position]? = some text) (hc : Color.parse? text = some c) :
    args.color position name = .ok c := by
  obtain ⟨read, filled⟩ := Color.parse?_unquoted hc
  simp only [Arguments.color, required, optional?_eq h filled, bind, Except.bind, readColor, read]

theorem orElse_eq_of_parse? (h : args.texts[position]? = some text) (hc : Color.parse? text = some c)
    (absent : Rgba) : args.orElse position absent readColor = .ok c := by
  obtain ⟨read, filled⟩ := Color.parse?_unquoted hc
  simp only [orElse, optional?_eq h filled, readColor, read]

/-- A dimension is read at a position exactly if the text there writes it, in quotes or not. -/
theorem dimension_eq_ok_iff : args.dimension position name = .ok d ↔
    ∃ text, args.texts[position]? = some text ∧ Dimension.parse? (unquoted text) = some d := by
  constructor
  · intro h
    cases found : args.optional? position with
    | none =>
      rw [Arguments.dimension, required, found] at h
      cases h
    | some inner =>
      obtain ⟨text, given, rfl⟩ := Option.map_eq_some_iff.1 (Option.filter_eq_some_iff.1 found).1
      refine ⟨text, given, ?_⟩
      simp only [Arguments.dimension, required, found, bind, Except.bind, readDimension] at h
      split at h
      · rename_i parsed
        rw [parsed, Except.ok.inj h]
      · cases h
  · rintro ⟨text, given, parsed⟩
    have filled : unquoted text ≠ "" := by
      intro empty
      rw [empty] at parsed
      cases parsed
    simp only [Arguments.dimension, required, optional?_eq given filled, bind, Except.bind,
      readDimension, parsed]

theorem dimension_of_parse? (h : args.texts[position]? = some text)
    (hd : Dimension.parse? text = some d) : args.dimension position name = .ok d :=
  dimension_eq_ok_iff.2 ⟨text, h, Dimension.parse?_unquoted hd⟩

/-- A plain argument that writes a dimension is read as this dimension. -/
theorem dimension_eq_of_parse? (h : args.texts[position]? = some text)
    (plain : text.toList.all isPlain = true) (hd : Dimension.parse? text = some d) :
    args.dimension position name = .ok d := by
  have same : unquoted text = text := by rw [unquoted, unquote_of_plain plain, String.ofList_toList]
  exact dimension_eq_ok_iff.2 ⟨text, h, by rwa [same]⟩

section Positions

variable {others : Arguments}

/-- More arguments than a function is for are more than any smaller number as well. -/
theorem fails_atMost {most limit : ℕ} (le : most ≤ limit) (surplus : limit < args.count) :
    Fails (args.atMost most) := by
  rw [atMost, if_pos (Nat.lt_of_le_of_lt le surplus)]
  exact .error

variable (same : args.optional? position = others.optional? position)

include same

/-- What is read at a position depends on the argument that is found there only. -/
theorem required_eq_of_optional? (name : String) :
    args.required position name = others.required position name := by
  rw [required, required, same]

theorem color_eq_of_optional? (name : String) :
    args.color position name = others.color position name := by
  rw [color, color, required_eq_of_optional? same]

theorem dimension_eq_of_optional? (name : String) :
    args.dimension position name = others.dimension position name := by
  rw [dimension, dimension, required_eq_of_optional? same]

theorem number_eq_of_optional? (name : String) :
    args.number position name = others.number position name := by
  rw [number, number, required_eq_of_optional? same]

theorem amount_eq_of_optional? (name : String) :
    args.amount position name = others.amount position name := by
  rw [amount, amount, required_eq_of_optional? same]

theorem orElse_eq_of_optional? {α : Type} (absent : α) (read : String → Except FunctionError α) :
    args.orElse position absent read = others.orElse position absent read := by
  rw [orElse, orElse, same]

end Positions

/-- What is read as a dimension has a finite value and a unit. -/
theorem yields_readDimension (text : String) : Yields (readDimension text) Dimension.Sound := by
  rw [readDimension]
  split
  · rename_i parsed
    exact .ok (Dimension.parse?_sound parsed)
  · exact .error

/-- An argument that is not absent is one of the texts without its quotes. -/
theorem exists_of_required (h : args.required position name = .ok text) :
    ∃ source ∈ args.texts, unquoted source = text := by
  rw [required] at h
  split at h
  · rename_i found
    obtain rfl := Except.ok.inj h
    obtain ⟨source, read, same⟩ := Option.map_eq_some_iff.1 (Option.filter_eq_some_iff.1 found).1
    exact ⟨source, List.mem_of_getElem? read, same⟩
  · cases h

theorem yields_dimension (args : Arguments) (position : Nat) (name : String) :
    Yields (args.dimension position name) Dimension.Sound :=
  .bind .any fun text _ => yields_readDimension text

end Arguments

end DesignTokens
