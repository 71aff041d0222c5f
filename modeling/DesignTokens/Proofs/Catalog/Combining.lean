import DesignTokens.Proofs.Catalog.Units

/-!
# Functions in one unit

Sums, differences, remainders, the smallest and the largest operand have the first unit that any operand
has, and are refused exactly if the units do not meet.

`clamp` aligns its value with the lower bound and the outcome with the upper one, but keeps the unit of
the first step. So it has the first unit of the three operands unless the upper bound alone has one.
-/

namespace DesignTokens.MathFunctions

open Dimension

variable {args others : Arguments} {settings : Settings} {a b d value low high : Dimension}
  {operands : List Dimension} {text : String} {units : List String}

section Functions

/-- The texts of the arguments write some dimensions. -/
def Reads (args : Arguments) (operands : List Dimension) : Prop :=
  args.texts.map parse? = operands.map some

instance (args : Arguments) (operands : List Dimension) : Decidable (Reads args operands) :=
  inferInstanceAs (Decidable (_ = _))

theorem Reads.dimension (h : Reads args operands) {position : ℕ} (name : String)
    (at_ : operands[position]? = some d) : args.dimension position name = .ok d := by
  have read := congrArg (·[position]?) h
  simp only [List.getElem?_map, at_, Option.map_some] at read
  obtain ⟨text, given, parsed⟩ := Option.map_eq_some_iff.1 read
  exact Arguments.dimension_of_parse? given parsed

theorem Reads.count (h : Reads args operands) : args.count = operands.length := by
  simpa [Arguments.count] using congrArg List.length h

theorem Reads.isUnit (h : Reads args operands) (mem : d ∈ operands) : IsUnit d.unit := by
  have read : some d ∈ args.texts.map parse? := h ▸ List.mem_map_of_mem mem
  obtain ⟨text, -, parsed⟩ := List.mem_map.1 read
  exact (parse?_sound parsed).unit

theorem Reads.binary (h : Reads args [a, b]) : binary args = .ok (a, b) := by
  have few : args.atMost 2 = .ok () := by simp [Arguments.atMost, h.count]
  rw [MathFunctions.binary, few, h.dimension "a" rfl, h.dimension "b" rfl]
  rfl

/-- A function of two operands that are aligned. -/
theorem Reads.settles_pair (h : Reads args [a, b]) (combine : Pair → Float) :
    Settles Dimension.unit [a.unit, b.unit]
      (align settings a b >>= fun p => pure ⟨combine p, p.unit⟩) :=
  (settles_align (h.isUnit (by simp))).bind fun p _ => ⟨_, rfl, rfl⟩

theorem Reads.settles_extreme (h : Reads args (a :: operands)) (better : Float → Float → Bool) :
    Settles Dimension.unit (a.unit :: operands.map (·.unit)) (extreme better args settings) := by
  obtain ⟨text, texts, given⟩ : ∃ text texts, args.texts = text :: texts :=
    List.exists_cons_of_ne_nil (by intro none; simp [Reads, none] at h)
  have others : texts.map parse? = operands.map some := by
    rw [Reads, given] at h
    exact (List.cons.inj h).2
  rw [extreme, h.dimension "a" rfl, given]
  exact settles_foldlM better (h.isUnit (by simp)) others

/-- The functions that bring their operands to one unit. -/
inductive Combiner where
  | add
  | subtract
  | mod
  | min
  | max
  deriving DecidableEq, Repr

namespace Combiner

/-- What the function computes. -/
def compute : Combiner → Computation
  | add => MathFunctions.add
  | subtract => MathFunctions.subtract
  | mod => MathFunctions.mod
  | min => MathFunctions.min
  | max => MathFunctions.max

/-- The operands that the function is for: two, or any positive number; a divisor is not zero. -/
def Takes : Combiner → List Dimension → Prop
  | add, operands => operands.length = 2
  | subtract, operands => operands.length = 2
  | mod, operands => ∃ a b, operands = [a, b] ∧ (b.value == 0) = false
  | min, operands => operands ≠ []
  | max, operands => operands ≠ []

variable {operator : Combiner}

theorem settles (operator : Combiner) (h : Reads args operands) (takes : operator.Takes operands) :
    Settles Dimension.unit (operands.map (·.unit)) (operator.compute args settings) := by
  cases operator with
  | add =>
    obtain ⟨a, b, rfl⟩ := List.length_eq_two.1 takes
    simp only [compute, MathFunctions.add, h.binary]
    exact h.settles_pair _
  | subtract =>
    obtain ⟨a, b, rfl⟩ := List.length_eq_two.1 takes
    simp only [compute, MathFunctions.subtract, h.binary]
    exact h.settles_pair _
  | mod =>
    obtain ⟨a, b, rfl, nonzero⟩ := takes
    simp only [compute, MathFunctions.mod, h.binary]
    show Settles _ _ (if (b.value == 0) = true then _ else _)
    rw [nonzero]
    exact h.settles_pair _
  | min =>
    obtain ⟨first, rest, rfl⟩ := List.exists_cons_of_ne_nil takes
    exact h.settles_extreme _
  | max =>
    obtain ⟨first, rest, rfl⟩ := List.exists_cons_of_ne_nil takes
    exact h.settles_extreme _

/-- Apart from a remainder, operands may come in any order. -/
theorem takes_of_perm {permuted : List Dimension} (symmetric : operator ≠ mod)
    (takes : operator.Takes operands) (h : permuted.Perm operands) : operator.Takes permuted := by
  cases operator with
  | add => exact h.length_eq.trans takes
  | subtract => exact h.length_eq.trans takes
  | mod => exact absurd rfl symmetric
  | min => exact fun none => takes (List.perm_nil.1 (none ▸ h.symm))
  | max => exact fun none => takes (List.perm_nil.1 (none ▸ h.symm))

end Combiner

/-- Permuted arguments write the permuted operands. -/
theorem Reads.perm (h : Reads args operands) (permuted : others.texts.Perm args.texts) :
    ∃ operands', Reads others operands' ∧ operands'.Perm operands := by
  have pairwise {args : Arguments} {operands : List Dimension} :
      Reads args operands ↔ List.Forall₂ (fun text d => parse? text = some d) args.texts operands := by
    rw [Reads, ← List.forall₂_eq_eq_eq, List.forall₂_map_left_iff, List.forall₂_map_right_iff]
  obtain ⟨operands', reads, same⟩ := List.perm_comp_forall₂ permuted (pairwise.1 h)
  exact ⟨operands', pairwise.2 reads, same⟩

/-- What a function answers whose operands have some units: it succeeds exactly if they meet, and the
answer is a number followed by the first of them; otherwise it fails because of the units. -/
structure ByUnits (units : List String) (places : ℕ) (answer : Except FunctionError String) : Prop where
  succeeds : (∃ text, answer = .ok text) ↔ Meet units
  fails : ¬ Meet units → ∃ left right, answer = .error (.incompatibleUnits left right)
  unit : ∀ text, answer = .ok text → ∃ x, text = Decimal.formatNumber x places ++ firstUnit units

theorem Settles.byUnits {compute : Computation}
    (h : Settles Dimension.unit units (compute args settings)) :
    ByUnits units settings.precision (written compute args settings) := by
  rw [written]
  generalize compute args settings = result at h ⊢
  cases h with
  | @ok d meet own =>
    refine ⟨⟨fun _ => meet, fun _ => ⟨_, rfl⟩⟩, fun apart => absurd meet apart, ?_⟩
    rintro text ⟨⟩
    exact ⟨d.value, by rw [Settings.format, Dimension.format, own]⟩
  | @refused left right apart =>
    refine ⟨⟨?_, fun meet => absurd meet apart⟩, fun _ => ⟨left, right, rfl⟩, ?_⟩
    · rintro ⟨text, ⟨⟩⟩
    · rintro text ⟨⟩

theorem byUnits (operator : Combiner) (h : Reads args operands) (takes : operator.Takes operands) :
    ByUnits (operands.map (·.unit)) settings.precision (written operator.compute args settings) :=
  (operator.settles h takes).byUnits

/-- Functions that bring their operands to one unit succeed exactly if the units of all operands meet
the first one, and answer with a number and this unit. So the order of the operands does not matter for
success, a remainder apart, and the smallest and the largest operand exist together, in one unit. -/
theorem combined_in_first_unit (settings : Settings) :
    (∀ (operator : Combiner) args operands, Reads args operands → operator.Takes operands →
        ByUnits (operands.map (·.unit)) settings.precision
          (written operator.compute args settings)) ∧
      (∀ (operator : Combiner) args others operands, operator ≠ .mod → Reads args operands →
        operator.Takes operands → others.texts.Perm args.texts →
          ((∃ text, written operator.compute others settings = .ok text) ↔
            ∃ text, written operator.compute args settings = .ok text)) ∧
      ∀ args operands, Reads args operands → operands ≠ [] →
        ((∃ least, written min args settings = .ok least) ↔
          ∃ greatest, written max args settings = .ok greatest) ∧
        ∃ unit, ∀ least greatest, written min args settings = .ok least →
          written max args settings = .ok greatest →
            (∃ x, least = Decimal.formatNumber x settings.precision ++ unit) ∧
              ∃ y, greatest = Decimal.formatNumber y settings.precision ++ unit := by
  refine ⟨fun operator args operands h takes => byUnits operator h takes, ?_, ?_⟩
  · intro operator args others operands symmetric h takes permuted
    obtain ⟨operands', h', same⟩ := h.perm permuted
    have takes' := operator.takes_of_perm symmetric takes same
    rw [(byUnits operator h takes).succeeds, (byUnits operator h' takes').succeeds]
    exact meet_perm (same.map _)
  · intro args operands h filled
    have least : ByUnits _ _ (written min args settings) := byUnits .min h filled
    have greatest : ByUnits _ _ (written max args settings) := byUnits .max h filled
    refine ⟨least.succeeds.trans greatest.succeeds.symm, firstUnit (operands.map (·.unit)), ?_⟩
    exact fun text text' ok ok' => ⟨least.unit text ok, greatest.unit text' ok'⟩

/-- A bare number takes on the unit of the others, whatever the order, and lengths are compared. -/
theorem combined_in_first_unit_rem :
    let args : Arguments := ⟨["2", "1rem", "12px"]⟩
    let operands : List Dimension := [⟨2, ""⟩, ⟨1, "rem"⟩, ⟨12, "px"⟩]
    let others : Arguments := ⟨["12px", "2", "1rem"]⟩
    (Reads args operands ∧ Combiner.min.Takes operands ∧ others.texts.Perm args.texts) ∧
      ByUnits ["", "rem", "px"] 4 (written min args .builtin) ∧
      ((∃ text, written min others .builtin = .ok text) ↔ ∃ text, written min args .builtin = .ok text) ∧
      ((∃ least, written min args .builtin = .ok least) ↔
        ∃ greatest, written max args .builtin = .ok greatest) := by
  intro args operands others
  have reads : Reads args operands := by decide +kernel
  have takes : Combiner.min.Takes operands := List.cons_ne_nil _ _
  have permuted : others.texts.Perm args.texts := by decide
  have ⟨byUnits, perm, both⟩ := combined_in_first_unit .builtin
  exact ⟨⟨reads, takes, permuted⟩, byUnits .min args operands reads takes,
    perm .min args others operands (by decide) reads takes permuted, (both args operands reads takes).1⟩

end Functions

section Clamp

/-- The unit is settled when the value is aligned with the lower bound. -/
theorem yields_clamp_unit : Yields (clamp args settings) fun d => ∃ value low high,
    args.dimension 0 "value" = .ok value ∧ args.dimension 1 "min" = .ok low ∧
      args.dimension 2 "max" = .ok high ∧ d.unit = firstUnit [value.unit, low.unit] := by
  refine .bind .any fun _ _ => .bind (.self _) fun value hv => .bind (.self _) fun low hl =>
    .bind (.self _) fun high hh => ?_
  have unit : IsUnit value.unit := (args.yields_dimension 0 "value" value hv).unit
  refine .bind (settles_align unit).yields fun p own => .bind .any fun q _ => ?_
  split_ifs
  · exact .error
  · exact .ok ⟨value, low, high, hv, hl, hh, own⟩

/-- The better one of two arguments has the first of their units. -/
theorem yields_extreme_pair (better : Float → Float → Bool) (first second : String) :
    Yields (extreme better ⟨[first, second]⟩ settings) fun d => ∃ a b,
      parse? (Text.unquoted first) = some a ∧ parse? second = some b ∧
        d.unit = firstUnit [a.unit, b.unit] := by
  refine .bind (.self _) fun a ha => ?_
  obtain ⟨text, given, parsed⟩ := Arguments.dimension_eq_ok_iff.1 ha
  obtain rfl : first = text := Option.some.inj given
  show Yields (preferred settings better a second >>= pure) _
  rw [bind_pure]
  cases read : parse? second with
  | none =>
    rw [preferred, Arguments.readDimension, read]
    exact .error
  | some b =>
    exact (settles_preferred better (parse?_sound parsed).unit read).yields.mono fun d own =>
      ⟨a, b, parsed, rfl, own⟩

/-- What `clamp` answers with, given what it read. -/
structure Clamped (args : Arguments) (settings : Settings) (value low high : Dimension)
    (text : String) : Prop where
  readValue : args.dimension 0 "value" = .ok value
  readLow : args.dimension 1 "min" = .ok low
  readHigh : args.dimension 2 "max" = .ok high
  /-- The answer is a number and the first unit of the value and the lower bound. -/
  unit : ∃ x, text = Decimal.formatNumber x settings.precision ++ firstUnit [value.unit, low.unit]
  /-- This is the first unit of all three, unless the upper bound alone has one. -/
  first : firstUnit [value.unit, low.unit] = firstUnit [value.unit, low.unit, high.unit] ↔
    ¬ (value.unit = "" ∧ low.unit = "" ∧ high.unit ≠ "")
  /-- The smaller one of the upper bound and the larger one of the others has the first unit of all. -/
  nested : ∀ v l u greatest least, args.texts = [v, l, u] →
    written max ⟨[v, l]⟩ settings = .ok greatest → written min ⟨[greatest, u]⟩ settings = .ok least →
      ∃ y, least = Decimal.formatNumber y settings.precision ++
        firstUnit [value.unit, low.unit, high.unit]

theorem ok_of_written {compute : Computation} (h : written compute args settings = .ok text) :
    ∃ d, compute args settings = .ok d ∧ text = settings.format d.value d.unit := by
  rw [written] at h
  cases computed : compute args settings with
  | error e =>
    rw [computed] at h
    cases h
  | ok d =>
    rw [computed] at h
    exact ⟨d, rfl, (Except.ok.inj h).symm⟩

/-- What a function answered with is read with the unit that was computed. -/
theorem unit_of_format {g : Dimension} (hu : IsUnit d.unit)
    (h : parse? (Text.unquoted (settings.format d.value d.unit)) = some g) : g.unit = d.unit := by
  have plain := all_isPlain_format hu settings.precision
  have same : Text.unquoted (settings.format d.value d.unit) = d.format settings.precision := by
    rw [Settings.format, Text.unquoted, Text.unquote_of_plain plain, String.ofList_toList]
  rw [same] at h
  exact unit_of_parse?_format hu h

/-- The better one of two arguments, written and compared with a third one, has the first unit of all
three. -/
theorem unit_of_nested {better better' : Float → Float → Bool} {v l w inner outer : String}
    (hv : parse? (Text.unquoted v) = some value) (hl : parse? (Text.unquoted l) = some low)
    (hw : parse? (Text.unquoted w) = some high)
    (hi : written (extreme better) ⟨[v, l]⟩ settings = .ok inner)
    (ho : written (extreme better') ⟨[inner, w]⟩ settings = .ok outer) :
    ∃ y, outer = Decimal.formatNumber y settings.precision ++
      firstUnit [value.unit, low.unit, high.unit] := by
  obtain ⟨d, computed, rfl⟩ := ok_of_written hi
  obtain ⟨a, b, ha, hb, own⟩ := yields_extreme_pair better v l d computed
  obtain rfl : value = a := Option.some.inj (hv.symm.trans ha)
  obtain rfl : low = b := Option.some.inj (hl.symm.trans (parse?_unquoted hb))
  obtain ⟨e, computed', rfl⟩ := ok_of_written ho
  obtain ⟨g, c, hg, hc, own'⟩ := yields_extreme_pair better' _ w e computed'
  obtain rfl : high = c := Option.some.inj (hw.symm.trans (parse?_unquoted hc))
  have hu : IsUnit d.unit := own ▸ isUnit_firstUnit
    (by simp [(parse?_sound hv).unit, (parse?_sound hl).unit])
  have unit : e.unit = firstUnit [value.unit, low.unit, high.unit] := by
    rw [own', unit_of_format hu hg, own, ← firstUnit_cons_cons]
  exact ⟨e.value, by rw [← unit]; rfl⟩

/-- The answer of `clamp` has the first unit of its value and its lower bound. So it has the first unit
of all three operands unless the upper bound alone has one, which is then forgotten. -/
theorem clamp_unit_of_first_two (h : written clamp args settings = .ok text) :
    ∃ value low high, Clamped args settings value low high text := by
  obtain ⟨d, computed, rfl⟩ := ok_of_written h
  obtain ⟨value, low, high, hv, hl, hh, own⟩ := yields_clamp_unit d computed
  refine ⟨value, low, high, hv, hl, hh, ⟨d.value, by rw [← own]; rfl⟩, ?_, ?_⟩
  · by_cases bareV : value.unit = ""
    · by_cases bareL : low.unit = ""
      · simp [bareV, bareL, firstUnit_singleton, @eq_comm _ ""]
      · simp [bareV, bareL, firstUnit_cons_of_ne bareL]
    · simp [bareV, firstUnit_cons_of_ne bareV]
  · intro v l w greatest least texts hg hm
    have read {position : ℕ} {name text : String} {r : Dimension} (at_ : args.texts[position]? = some text)
        (hr : args.dimension position name = .ok r) : parse? (Text.unquoted text) = some r := by
      obtain ⟨source, given, parsed⟩ := Arguments.dimension_eq_ok_iff.1 hr
      rwa [Option.some.inj (at_.symm.trans given)]
    exact unit_of_nested (read (by rw [texts]; rfl) hv) (read (by rw [texts]; rfl) hl)
      (read (by rw [texts]; rfl) hh) hg hm

/-- Pixels between two bounds in rem stay pixels. -/
theorem clamp_unit_of_first_two_px :
    written clamp ⟨["10px", "1rem", "2rem"]⟩ .builtin = .ok "16px" ∧
      ∃ value low high, Clamped ⟨["10px", "1rem", "2rem"]⟩ .builtin value low high "16px" := by
  have answer : written clamp ⟨["10px", "1rem", "2rem"]⟩ .builtin = .ok "16px" := by decide +kernel
  exact ⟨answer, clamp_unit_of_first_two answer⟩

/-- The unit of the upper bound is forgotten, though it is the only one of the three operands, and the
same comparisons one after the other keep it. -/
theorem clamp_forgets_unit :
    Settings.builtin.isValid = true ∧
      Reads ⟨["5", "1", "10px"]⟩ [⟨5, ""⟩, ⟨1, ""⟩, ⟨10, "px"⟩] ∧ firstUnit ["", "", "px"] = "px" ∧
      written clamp ⟨["5", "1", "10px"]⟩ .builtin = .ok "5" ∧
      written max ⟨["5", "1"]⟩ .builtin = .ok "5" ∧
      written min ⟨["5", "10px"]⟩ .builtin = .ok "5px" := by
  decide +kernel

end Clamp

end DesignTokens.MathFunctions
