import DesignTokens.Binary64
import DesignTokens.Proofs.Binary64

/-!
# Brought to an end of a range

A double that is not above the lower end of a range is brought to it, and one that is not below the
upper end to that. Infinities are among them; a zero may come out with either sign.
-/

namespace DesignTokens.Binary64

open Float.Model Float.Model.UnpackedFloat

theorem compare_swap (a b : UnpackedFloat) : b.compare a = (a.compare b).map Ordering.swap := by
  rcases a with (_ | _) | _ | (_ | _) | ⟨_ | _, m, e, _⟩ <;>
    rcases b with (_ | _) | _ | (_ | _) | ⟨_ | _, n, f, _⟩ <;>
    simp [UnpackedFloat.compare, Ordering.swap_then, ← Std.OrientedOrd.eq_swap] <;> rfl

section Order

variable {x y : Float}

theorem lt_iff_compare : x < y ↔ x.toModel.unpack.compare y.toModel.unpack = some .lt := by
  show Float.lt x y = true ↔ _
  rw [Float.lt, decide_eq_true_iff]
  exact beq_iff_eq

theorem le_iff_compare :
    x ≤ y ↔ ∃ o, x.toModel.unpack.compare y.toModel.unpack = some o ∧ o ≠ .gt := by
  show Float.le x y = true ↔ _
  rw [Float.le, decide_eq_true_iff]
  show (x.toModel.unpack.compare y.toModel.unpack).any (·.isLE) = true ↔ _
  cases x.toModel.unpack.compare y.toModel.unpack <;> simp [Ordering.isLE_iff_ne_gt]

/-- The order of two doubles, seen from either of them. -/
theorem exists_compare (h : x ≤ y) : ∃ o : Ordering, o ≠ .gt ∧
    x.toModel.unpack.compare y.toModel.unpack = some o ∧
      y.toModel.unpack.compare x.toModel.unpack = some o.swap := by
  obtain ⟨o, compared, le⟩ := le_iff_compare.1 h
  exact ⟨o, le, compared, by rw [compare_swap, compared, Option.map_some]⟩

theorem not_lt_of_le (h : x ≤ y) : ¬ y < x := by
  obtain ⟨o, le, -, swapped⟩ := exists_compare h
  rw [lt_iff_compare, swapped]
  cases o <;> simp_all

theorem le_of_not_lt (hx : x.isNaN = false) (hy : y.isNaN = false) (h : ¬ y < x) : x ≤ y := by
  rcases le_total hx hy with below | above
  · exact below
  · obtain ⟨o, le, compared, swapped⟩ := exists_compare above
    rw [lt_iff_compare, compared] at h
    refine le_iff_compare.2 ⟨_, swapped, ?_⟩
    cases o <;> simp_all

theorem beq_of_le_of_le (h : x ≤ y) (h' : y ≤ x) : (x == y) = true := by
  obtain ⟨o, le, compared, -⟩ := exists_compare h
  obtain ⟨o', le', -, swapped⟩ := exists_compare h'
  have same : o = o'.swap := Option.some.inj (compared.symm.trans swapped)
  have equal : o = .eq := by
    cases o with
    | lt => exact absurd (Ordering.swap_eq_lt.1 same.symm) le'
    | eq => rfl
    | gt => contradiction
  show (x.toModel.unpack.compare y.toModel.unpack == some .eq) = true
  rw [compared, equal]
  rfl

end Order

section Ends

variable {x low high : Float} (order : low ≤ high)

include order

theorem clamp_of_le (h : x ≤ low) : clamp x low high ≤ low ∧ low ≤ clamp x low high := by
  obtain ⟨hx, hl⟩ := isNaN_of_le h
  have raised : (if x < low then low else x) ≤ low ∧ low ≤ if x < low then low else x := by
    split
    · exact ⟨le_refl hl, le_refl hl⟩
    · rename_i above
      exact ⟨h, le_of_not_lt hl hx above⟩
  rwa [clamp, if_neg (not_lt_of_le (le_trans raised.1 order))]

theorem clamp_of_ge (h : high ≤ x) : clamp x low high ≤ high ∧ high ≤ clamp x low high := by
  obtain ⟨hh, hx⟩ := isNaN_of_le h
  rw [clamp, if_neg (not_lt_of_le (le_trans order h))]
  split
  · exact ⟨le_refl hh, le_refl hh⟩
  · rename_i below
    exact ⟨le_of_not_lt hx hh below, h⟩

end Ends

end DesignTokens.Binary64
