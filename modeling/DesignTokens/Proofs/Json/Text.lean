import DesignTokens.Json.Printer
import DesignTokens.Proofs.Expression.Call

/-!
# The text of a typed value is no call

A number is written with digits, points, signs and an `e`, a Boolean with letters, and an array or an
object between brackets. None of these texts is a call, whatever blanks stand around it and whatever
an array or an object holds.
-/

namespace DesignTokens

open Text

namespace Decimal

theorem paren_notMem_digits (n : Nat) : '(' ∉ digits n := by
  intro h
  have hd := Nat.isDigit_of_mem_toDigits (by decide) (by decide) h
  exact absurd hd (by decide)

theorem paren_notMem_pointed (places n : Nat) : '(' ∉ pointed places n := by
  have padded : '(' ∉ paddedDigits (places + 1) n := by
    simp [paddedDigits, paren_notMem_digits]
  unfold pointed
  dsimp only
  split
  · exact padded
  · simp only [List.mem_append, List.mem_cons, not_or]
    exact ⟨fun h => padded (List.mem_of_mem_take h), by decide,
      fun h => padded (List.mem_of_mem_drop h)⟩

theorem Scaled.paren_notMem_plain (d : Scaled) : '(' ∉ d.plain := by
  unfold plain
  split
  · simp [paren_notMem_digits]
  · exact paren_notMem_pointed _ _

theorem Scaled.paren_notMem_scientific (d : Scaled) : '(' ∉ d.scientific := by
  have part {s : List Char} (h : s ⊆ digits d.significand) : '(' ∉ s :=
    fun hm => paren_notMem_digits _ (h hm)
  have fraction :
      '(' ∉ if (digits d.significand).length = 1 then [] else '.' :: (digits d.significand).drop 1 := by
    split
    · simp
    · simp only [List.mem_cons, not_or]
      exact ⟨by decide, part (List.drop_subset _ _)⟩
  have sign : '(' ≠ if d.leading < 0 then '-' else '+' := by split <;> decide
  unfold scientific
  simp only [List.mem_append, List.mem_cons, not_or]
  exact ⟨⟨part (List.take_subset _ _), fraction⟩, by decide, sign, paren_notMem_digits _⟩

end Decimal

namespace Json

theorem paren_notMem_realText (x : Float) : '(' ∉ (realText x).toList := by
  unfold realText
  split
  · rename_i negative mantissa exponent _
    have magnitude : '(' ∉ (if mantissa = 0 then ['0', '.', '0']
        else
          let d := Decimal.shortest .even mantissa exponent
          if -5 ≤ d.leading ∧ d.leading ≤ 15 then
            if 0 ≤ d.exponent then d.plain ++ ['.', '0'] else d.plain
          else d.scientific) := by
      dsimp only
      split
      · decide
      · split
        · split
          · simp [Decimal.Scaled.paren_notMem_plain]
          · exact Decimal.Scaled.paren_notMem_plain _
        · exact Decimal.Scaled.paren_notMem_scientific _
    dsimp only at magnitude ⊢
    rw [String.toList_ofList]
    split
    · simp only [List.mem_cons, not_or]
      exact ⟨by decide, magnitude⟩
    · exact magnitude
  · decide

theorem paren_notMem_render_number (n : Number) : '(' ∉ n.render.toList := by
  have natural (n : Nat) : '(' ∉ (toString n).toList := by
    rw [Nat.toString_eq_repr, Nat.repr, String.toList_ofList]
    exact Decimal.paren_notMem_digits n
  cases n with
  | integer n =>
    rw [Number.render]
    split
    · rw [String.toList_append, List.mem_append, not_or]
      exact ⟨by decide, natural _⟩
    · exact natural _
  | real x => exact paren_notMem_realText x

theorem eq_string_of_text? {value : Json} {text : String} (h : value.text? = some text) :
    value = .string text := by
  cases value with
  | string s => exact congrArg Json.string (Option.some.inj h)
  | _ => simp [text?] at h

/-- A text writes a value: a string as it is, any other value as its JSON text with nothing but blanks
around it. -/
def WrittenAs (value : Json) (text : String) : Prop :=
  match value with
  | .string inner => text = inner
  | value => Padded value.render.toList text.toList

/-- A value that is neither a string nor null is not written as a call. -/
theorem isCall_of_padded_render {value : Json} {text : String} (hs : value.text? = none)
    (hn : value ≠ .null) (hp : Padded value.render.toList text.toList) : isCall text = false := by
  rw [← String.ofList_toList (s := text)]
  cases value with
  | null => exact absurd rfl hn
  | bool b => exact isCall_of_notMem (by cases b <;> decide) hp
  | number n => exact isCall_of_notMem (paren_notMem_render_number n) hp
  | string s => simp [text?] at hs
  | array items =>
    have hr : Padded ('[' :: ((Json.array items).render.toList.drop 1)) text.toList := by
      simpa [render] using hp
    exact isCall_of_not_isNameStart (by decide) (by decide) hr
  | object entries =>
    have hr : Padded ('{' :: ((Json.object entries).render.toList.drop 1)) text.toList := by
      simpa [render] using hp
    exact isCall_of_not_isNameStart (by decide) (by decide) hr

end Json

end DesignTokens
