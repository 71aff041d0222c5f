import DesignTokens.Catalog.ContrastFunctions
import DesignTokens.Proofs.Catalog.Arguments
import DesignTokens.Proofs.Color.Luminance
import DesignTokens.Proofs.Color.Search

/-!
# Readable pairs

A color that can be read on a background is searched from the background itself. Its ratio to itself is
one, so the search is always made, and the luminance of the background sends it to the side on which
black or white has the ratio that the lower level of conformance requires. So the search ends with a
color that has this ratio, wherever its steps lead.

The luminance is taken by any power function that can be used for linear light; the library is the case
of the power function of the platform.
-/

namespace DesignTokens.Color

open Binary64 Arguments ContrastFunctions

namespace Measure

/-- The measure by relative luminance, computed with a power function. -/
def ofPower (power : Float → Float → Float) : Measure where
  ratio c d := ratioOf (luminanceBy power c) (luminanceBy power d)
  light c := pivot < luminanceBy power c

theorem ofPower_pow : ofPower Float.pow = luminous := rfl

variable {power : Float → Float → Float} {bg c d : Rgba} {target : Float}

theorem reaches_congr_ofPower (h : Rgba.SameChannels c d) :
    (ofPower power).Reaches target bg c ↔ (ofPower power).Reaches target bg d := by
  have same : luminanceBy power c = luminanceBy power d := by
    rw [luminanceBy, luminanceBy, h.red, h.green, h.blue]
  show target ≤ ratioOf _ _ ↔ target ≤ ratioOf _ _
  rw [same]

/-- Black or white, whichever is on the side that is searched, has the required ratio. -/
theorem reaches_farthest (hpower : UnitPower power) (h : bg.InGamut) :
    (ofPower power).Reaches 4.5 bg ((ofPower power).farthest bg) := by
  have range := lies_luminanceBy hpower h
  show 4.5 ≤ ratioOf (luminanceBy power ((ofPower power).farthest bg)) (luminanceBy power bg)
  rw [farthest]
  split
  · rename_i light
    rw [luminanceBy_black]
    exact required_le_ratioOf_zero range (of_decide_eq_true light)
  · rename_i dark
    rw [luminanceBy_white hpower]
    exact required_le_ratioOf_one range fun light => dark (decide_eq_true light)

/-- A background cannot be read on itself. -/
theorem not_reaches_self (hpower : UnitPower power) (h : bg.InGamut) :
    ¬ (ofPower power).Reaches 4.5 bg bg := by
  obtain ⟨p, hp, above, -⟩ := lies_required
  obtain ⟨q, hq, -, below⟩ := lies_ratioOf_self (lies_luminanceBy hpower h)
  intro reached
  have : p ≤ q := (value?_le_iff hp hq).1 reached
  linarith

/-- Whatever the number of steps is, the search from a background ends with a color that can be read on
it, also after this color is written. -/
theorem reaches_pair (hpower : UnitPower power) (h : bg.InGamut) (steps : Nat) :
    (ofPower power).Reaches 4.5 bg ((ofPower power).adjust steps bg bg 4.5).written := by
  have missed := not_reaches_self hpower h
  have whole := (ofPower power).whole_adjust steps missed
  rw [reaches_congr_ofPower whole]
  refine ((ofPower power).reaches_adjust steps missed (reaches_farthest hpower h)).resolve_right ?_
  refine ne_true_of_eq_false (isNaN_ratioOf ?_ (lies_luminanceBy hpower h))
  exact lies_luminanceBy hpower (Rgba.inGamut_of_whole whole)

end Measure

section Answer

variable {power : Float → Float → Float} {bg : Rgba} {background : String} {level : List String}

/-- The color that can be read on a background, by a power function. -/
def accessiblePairBy (power : Float → Float → Float) : FunctionBody := fun args _ => do
  args.atMost 2
  let bg ← args.color 0 "bg"
  let target ← threshold ((args.optional? 1).getD "AA") "normal"
  pure ((Measure.ofPower power).adjust searchSteps bg bg target).toHex

theorem accessiblePairBy_pow : accessiblePairBy Float.pow = accessiblePair := by
  have searched := Measure.adjust_luminous
  unfold accessiblePairBy accessiblePair
  rw [Measure.ofPower_pow, searched]

theorem accessiblePairBy_eq (hb : parse? background = some bg) (few : level.length ≤ 1)
    (lower : Conformance.parse? (((Arguments.mk (background :: level)).optional? 1).getD "AA") =
      some .aa)
    (settings : Settings) :
    accessiblePairBy power ⟨background :: level⟩ settings =
      .ok ((Measure.ofPower power).adjust searchSteps bg bg 4.5).toHex := by
  have count : (Arguments.mk (background :: level)).atMost 2 = .ok () := by
    rw [atMost, if_neg]
    simp only [Arguments.count, List.length_cons]
    omega
  have target : threshold (((Arguments.mk (background :: level)).optional? 1).getD "AA") "normal" =
      .ok 4.5 := by
    have normal : TextSize.parse? "normal" = some .normal := by decide +kernel
    rw [threshold, normal, lower]
    rfl
  rw [accessiblePairBy, count, color_eq_of_parse? rfl hb, target]
  rfl

/-- On every background that is a color, the answer at the lower level of conformance reads back as a
color with the ratio 4.5 or a larger one. The luminance of the background is a number from 0 to 1, and
black or white, whichever the pivot chooses, has the ratio too. The power function is any that can be
used for linear light, and the library takes the one of the platform. -/
theorem accessiblePair_reaches (hpower : UnitPower power) (hb : parse? background = some bg)
    (few : level.length ≤ 1)
    (lower : Conformance.parse? (((Arguments.mk (background :: level)).optional? 1).getD "AA") =
      some .aa)
    (settings : Settings) :
    accessiblePairBy Float.pow = accessiblePair ∧ Measure.ofPower Float.pow = Measure.luminous ∧
      luminanceBy Float.pow = luminance ∧ Lies 0 1 (luminanceBy power bg) ∧
      luminanceBy power .black = 0 ∧ luminanceBy power .white = 1 ∧
      (Measure.ofPower power).Reaches 4.5 bg
        (if pivot < luminanceBy power bg then .black else .white) ∧
      ∃ answer d, accessiblePairBy power ⟨background :: level⟩ settings = .ok answer ∧
        parse? answer = some d ∧ (Measure.ofPower power).Reaches 4.5 bg d := by
  have range := inRange_of_parse? hb
  have side := Measure.reaches_farthest hpower range.toInGamut
  rw [Measure.farthest] at side
  refine ⟨accessiblePairBy_pow, Measure.ofPower_pow, luminanceBy_pow,
    lies_luminanceBy hpower range.toInGamut, luminanceBy_black power, luminanceBy_white hpower, ?_, _, _,
    accessiblePairBy_eq hb few lower settings, parse?_toHex _,
    Measure.reaches_pair hpower range.toInGamut searchSteps⟩
  simpa only [Measure.ofPower, decide_eq_true_eq] using side

/-- The power of a number from 0 to 1 to a fraction, by square roots: one for each binary digit of the
fraction. -/
def fractionalPower : Nat → Float → Float → Float
  | 0, _, _ => 1
  | digits + 1, x, y =>
    if 1 ≤ 2 * y then x.sqrt * fractionalPower digits x.sqrt (2 * y - 1)
    else fractionalPower digits x.sqrt (2 * y)

/-- A power function that computes with square roots. -/
def rootPower (x y : Float) : Float :=
  Rgba.clampChannel (naturalPower x y.toUInt64.toNat * fractionalPower 53 x (y - floor y))

theorem fractionalPower_one (digits : Nat) (y : Float) : fractionalPower digits 1 y = 1 := by
  have root : Float.sqrt 1 = 1 := by decide +kernel
  have product : (1 : Float) * 1 = 1 := by decide
  induction digits generalizing y with
  | zero => rfl
  | succ digits ih => rw [fractionalPower, root, ih, ih, product, ite_self]

theorem unitPower_rootPower : UnitPower rootPower where
  unit _ := Rgba.value?_clampChannel _
  one := by
    rw [rootPower, fractionalPower_one]
    decide +kernel

/-- For a gray whose luminance is a little above the pivot. -/
theorem accessiblePair_reaches_gray :
    UnitPower rootPower ∧ parse? "#767676" = some (.ofBytes 118 118 118) ∧
      Conformance.parse? (((Arguments.mk ["#767676", "AA"]).optional? 1).getD "AA") = some .aa ∧
      accessiblePairBy Float.pow = accessiblePair ∧ Measure.ofPower Float.pow = Measure.luminous ∧
      luminanceBy Float.pow = luminance ∧ Lies 0 1 (luminanceBy rootPower (.ofBytes 118 118 118)) ∧
      luminanceBy rootPower .black = 0 ∧ luminanceBy rootPower .white = 1 ∧
      (Measure.ofPower rootPower).Reaches 4.5 (.ofBytes 118 118 118)
        (if pivot < luminanceBy rootPower (.ofBytes 118 118 118) then .black else .white) ∧
      ∃ answer d, accessiblePairBy rootPower ⟨["#767676", "AA"]⟩ .builtin = .ok answer ∧
        parse? answer = some d ∧ (Measure.ofPower rootPower).Reaches 4.5 (.ofBytes 118 118 118) d := by
  have hb : parse? "#767676" = some (.ofBytes 118 118 118) := by decide +kernel
  have lower : Conformance.parse? (((Arguments.mk ["#767676", "AA"]).optional? 1).getD "AA") =
      some .aa := by decide +kernel
  exact ⟨unitPower_rootPower, hb, lower,
    accessiblePair_reaches unitPower_rootPower hb le_rfl lower .builtin⟩

end Answer

end DesignTokens.Color
