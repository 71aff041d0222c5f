import Mathlib

/-!
# The order of doubles

Doubles that are numbers are in a line: infinities on the outside, then negative and positive numbers
by exponent and mantissa, with both zeros in one place. A double that is not a number stands nowhere,
and no comparison with it holds.
-/

namespace DesignTokens.Binary64

open Float.Model Float.Model.UnpackedFloat

/-- The place of a double in the line: its side, its exponent and its mantissa. -/
def place : UnpackedFloat → Option (Int ×ₗ Int ×ₗ Int)
  | .notANumber => none
  | .infinity s => some (toLex (s.apply 2, toLex (0, 0)))
  | .zero _ => some (toLex (0, toLex (0, 0)))
  | .finite s m e _ => some (toLex (s.apply 1, toLex (s.apply e, s.apply m)))

section Unpacked

theorem isLE_then_iff (e f : Int) (m n : Nat) :
    ((compare e f).then (compare m n)).isLE = true ↔ e < f ∨ e = f ∧ m ≤ n := by
  rw [Ordering.isLE_then_iff_or]
  simp [Int.compare_eq_lt, Nat.isLE_compare]

theorem isGE_then_iff (e f : Int) (m n : Nat) :
    ((compare e f).then (compare m n)).isGE = true ↔ f < e ∨ e = f ∧ n ≤ m := by
  rw [← Ordering.isLE_swap, Ordering.swap_then, ← Std.OrientedOrd.eq_swap,
    ← Std.OrientedOrd.eq_swap, isLE_then_iff, eq_comm]

/-- The comparison of doubles is that of their places. -/
theorem le_iff_place {a b : UnpackedFloat} :
    a.le b = true ↔ ∃ i j, place a = some i ∧ place b = some j ∧ i ≤ j := by
  rcases a with (_ | _) | _ | (_ | _) | ⟨_ | _, m, e, _⟩ <;>
    rcases b with (_ | _) | _ | (_ | _) | ⟨_ | _, n, f, _⟩ <;>
    simp only [UnpackedFloat.le, UnpackedFloat.compare, place, Prod.Lex.toLex_le_toLex, Sign.apply,
      Option.any_some, Option.any_none, Ordering.isLE_swap, isLE_then_iff, isGE_then_iff,
      Option.some.injEq, exists_and_left, exists_eq_left'] <;>
    simp <;> decide

theorem place_eq_none_iff {a : UnpackedFloat} : place a = none ↔ a.isNaN = true := by
  cases a with
  | notANumber => exact ⟨fun _ => rfl, fun _ => rfl⟩
  | infinity | zero | finite => exact ⟨nofun, nofun⟩

end Unpacked

section Order

variable {x y z : Float}

theorem le_iff : x ≤ y ↔
    ∃ i j, place x.toModel.unpack = some i ∧ place y.toModel.unpack = some j ∧ i ≤ j := by
  rw [← le_iff_place]
  show Float.le x y = true ↔ _
  rw [Float.le, decide_eq_true_iff]
  exact Iff.rfl

theorem le_trans (h : x ≤ y) (h' : y ≤ z) : x ≤ z := by
  rw [le_iff] at h h' ⊢
  obtain ⟨i, j, hi, hj, first⟩ := h
  obtain ⟨j', k, hj', hk, second⟩ := h'
  obtain rfl := Option.some.inj (hj.symm.trans hj')
  exact ⟨i, k, hi, hk, first.trans second⟩

/-- Numbers can be compared. -/
theorem le_total (hx : x.isNaN = false) (hy : y.isNaN = false) : x ≤ y ∨ y ≤ x := by
  have number {x : Float} (h : x.isNaN = false) : ∃ i, place x.toModel.unpack = some i := by
    rw [← Option.ne_none_iff_exists', ne_eq, place_eq_none_iff]
    exact ne_true_of_eq_false h
  obtain ⟨i, hi⟩ := number hx
  obtain ⟨j, hj⟩ := number hy
  simp only [le_iff, hi, hj, Option.some.injEq, exists_and_left, exists_eq_left']
  exact LinearOrder.le_total i j

theorem le_refl (h : x.isNaN = false) : x ≤ x := (le_total h h).elim id id

/-- What can be compared is a number. -/
theorem isNaN_of_le (h : x ≤ y) : x.isNaN = false ∧ y.isNaN = false := by
  obtain ⟨i, j, hi, hj, -⟩ := le_iff.1 h
  have number {x : Float} {i} (h : place x.toModel.unpack = some i) : x.isNaN = false := by
    refine eq_false_of_ne_true fun nan => ?_
    rw [place_eq_none_iff.2 nan] at h
    simp at h
  exact ⟨number hi, number hj⟩

end Order

end DesignTokens.Binary64
