import DesignTokens.Catalog.Builtin
import DesignTokens.Proofs.Catalog.Arguments

/-!
# What math functions answer with

A math function writes a number and a unit. The unit is one that a dimension can have, with one
exception: a bare number is converted to any text as its unit. An answer with such a unit is read as a
dimension again exactly if its number is finite. Operands are, but what is computed from them need not
be: a sum can be beyond all doubles, and a divisor is compared with zero before it is converted to the
unit of the dividend, which can make it zero.
-/

namespace DesignTokens.MathFunctions

open Dimension

variable {args : Arguments} {settings : Settings} {a b d : Dimension} {text name : String}

section Units

/-- What is computed has a unit that a dimension can have. -/
def HasUnit (d : Dimension) : Prop := IsUnit d.unit

theorem yields_operand (args : Arguments) (position : Nat) (name : String) :
    Yields (args.dimension position name) HasUnit :=
  (args.yields_dimension position name).mono fun _ read => read.unit

theorem yields_unary (args : Arguments) : Yields (unary args) Sound :=
  .bind .any fun _ _ => args.yields_dimension 0 "value"

theorem yields_binary (args : Arguments) :
    Yields (binary args) fun operands => HasUnit operands.1 ∧ HasUnit operands.2 :=
  .bind .any fun _ _ => .bind (yields_operand args 0 "a") fun _ ha =>
    .bind (yields_operand args 1 "b") fun _ hb => .ok ⟨ha, hb⟩

theorem yields_align (ha : HasUnit a) (hb : HasUnit b) :
    Yields (align settings a b) fun p => IsUnit p.unit := by
  rw [align]
  split_ifs
  · exact .ok ha
  · exact .ok hb
  · exact .ok ha
  · split
    · exact .ok ha
    · exact .error

theorem yields_add : Yields (add args settings) HasUnit :=
  .bind (yields_binary args) fun _ units => .bind (yields_align units.1 units.2) fun _ unit => .ok unit

theorem yields_subtract : Yields (subtract args settings) HasUnit :=
  .bind (yields_binary args) fun _ units => .bind (yields_align units.1 units.2) fun _ unit => .ok unit

theorem yields_multiply : Yields (multiply args settings) HasUnit := by
  refine .bind (yields_binary args) fun (value, factor) units => ?_
  dsimp only
  split_ifs
  · exact .ok units.1
  · exact .ok units.2
  · exact .error

theorem yields_divide : Yields (divide args settings) HasUnit := by
  refine .bind (yields_binary args) fun (value, divisor) units => ?_
  dsimp only
  split_ifs
  · exact .error
  · exact .ok units.1
  · exact .error
  · exact .bind .any fun _ _ => .ok isUnit_empty

theorem yields_mod : Yields (mod args settings) HasUnit := by
  refine .bind (yields_binary args) fun (a, b) units => ?_
  dsimp only
  split_ifs
  · exact .error
  · exact .bind (yields_align units.1 units.2) fun _ unit => .ok unit

theorem yields_roundWith (whole : Float → Float) : Yields (roundWith whole args settings) HasUnit := by
  refine .bind .any fun _ _ => .bind (yields_operand args 0 "value") fun value unit =>
    .bind .any fun places _ => ?_
  split_ifs
  · exact .ok unit
  · exact .error

theorem yields_preferred (better : Float → Float → Bool) (best : Dimension) (text : String)
    (h : HasUnit best) : Yields (preferred settings better best text) HasUnit := by
  refine .bind (Arguments.yields_readDimension text) fun other read =>
    .bind (yields_align h read.unit) fun p unit => .ok ?_
  rw [HasUnit, of, unit.lower]
  exact unit

theorem yields_extreme (better : Float → Float → Bool) :
    Yields (extreme better args settings) HasUnit :=
  .bind (yields_operand args 0 "a") fun _ first =>
    .foldlM _ first fun best text _ => yields_preferred better best text

theorem yields_clamp : Yields (clamp args settings) HasUnit := by
  refine .bind .any fun _ _ => .bind (yields_operand args 0 "value") fun value hv =>
    .bind (yields_operand args 1 "min") fun low hl => .bind .any fun high _ =>
    .bind (yields_align hv hl) fun p hp => .bind .any fun q _ => ?_
  split_ifs
  · exact .error
  · exact .ok hp

theorem yields_percent : Yields (percent args settings) HasUnit := by
  refine .bind .any fun _ _ => .bind .any fun part _ => .bind .any fun whole _ => ?_
  split_ifs
  · exact .error
  · exact .bind .any fun _ _ => .ok isUnit_percent

/-- The first argument is a bare number, and what is computed has the second one, in lower case, for its
unit. -/
def Relabelled (args : Arguments) (d : Dimension) : Prop :=
  ∃ x unit, args.dimension 0 "value" = .ok ⟨x, ""⟩ ∧ args.required 1 "unit" = .ok unit ∧
    d = ⟨x, unit.toLower⟩

theorem yields_convert : Yields (convert args settings) fun d => HasUnit d ∨ Relabelled args d := by
  refine .bind .any fun _ _ => .bind (.self _) fun value hv => .bind (.self _) fun unit hu => ?_
  split
  · rename_i converted
    have operand := yields_operand args 0 "value" value hv
    rcases convert?_cases operand converted with kept | ⟨bare, relabelled⟩
    · exact .ok (.inl kept)
    · refine .ok (.inr ⟨value.value, unit, ?_, hu, relabelled⟩)
      rw [hv, ← bare]
  · exact .error

end Units

section Finite

theorem isFinite_abs {x : Float} (h : x.isFinite = true) : x.abs.isFinite = true := by
  obtain ⟨q, value⟩ := Binary64.isFinite_iff.1 h
  exact Binary64.isFinite_iff.2 ⟨_, by rw [Binary64.value?_abs, value]; rfl⟩

theorem isFinite_neg {x : Float} (h : x.isFinite = true) : (-x).isFinite = true := by
  obtain ⟨q, value⟩ := Binary64.isFinite_iff.1 h
  exact Binary64.isFinite_iff.2 ⟨_, by rw [Binary64.value?_neg, value]; rfl⟩

theorem isFinite_clamp {x low high : Float} (hx : x.isFinite = true) (hl : low.isFinite = true)
    (hh : high.isFinite = true) : (Binary64.clamp x low high).isFinite = true := by
  simp only [Binary64.clamp]
  split_ifs <;> assumption

theorem yields_abs : Yields (abs args settings) Sound :=
  .bind (yields_unary args) fun _ read => .ok ⟨isFinite_abs read.finite, read.unit⟩

theorem yields_negate : Yields (negate args settings) Sound :=
  .bind (yields_unary args) fun _ read => .ok ⟨isFinite_neg read.finite, read.unit⟩

/-- All operands with a unit have the same one. -/
def OneUnit (args : Arguments) (common : String) : Prop :=
  ∀ text ∈ args.texts, ∀ d, parse? (Text.unquoted text) = some d → d.unit = "" ∨ d.unit = common

/-- A dimension as it is read, with a given unit or none. -/
structure Within (common : String) (d : Dimension) : Prop extends Sound d where
  same : d.unit = "" ∨ d.unit = common

variable {common : String}

theorem OneUnit.within (h : OneUnit args common) (mem : text ∈ args.texts)
    (hd : parse? (Text.unquoted text) = some d) : Within common d :=
  ⟨parse?_sound hd, h text mem d hd⟩

theorem OneUnit.yields_operand (h : OneUnit args common) (position : Nat) (name : String) :
    Yields (args.dimension position name) (Within common) := by
  refine .bind (.self _) fun text required => ?_
  obtain ⟨source, mem, rfl⟩ := Arguments.exists_of_required required
  rw [Arguments.readDimension]
  split
  · rename_i parsed
    exact .ok (h.within mem parsed)
  · exact .error

/-- Operands in one unit meet as they are. -/
theorem Within.yields_align (ha : Within common a) (hb : Within common b) :
    Yields (align settings a b) fun p => p.first.isFinite = true ∧ p.second.isFinite = true ∧
      IsUnit p.unit ∧ (p.unit = "" ∨ p.unit = common) := by
  rw [align]
  split_ifs with same
  · exact .ok ⟨ha.finite, hb.finite, ha.unit, ha.same⟩
  · exact .ok ⟨ha.finite, hb.finite, hb.unit, hb.same⟩
  · exact .ok ⟨ha.finite, hb.finite, ha.unit, ha.same⟩
  · -- two different units are not both the given one
    have named {d : Dimension} (h : Within common d) (bare : ¬ d.isUnitless = true) : d.unit = common :=
      h.same.resolve_left fun none => bare (by simp [isUnitless, none])
    rename_i bareA bareB
    exact absurd ((named ha bareA).trans (named hb bareB).symm) same

theorem OneUnit.yields_preferred (h : OneUnit args common) (better : Float → Float → Bool)
    (best : Dimension) (mem : text ∈ args.texts) (kept : Within common best) :
    Yields (preferred settings better best text) (Within common) := by
  refine .bind (.self _) fun other read => ?_
  have within : Within common other := by
    rw [Arguments.readDimension] at read
    split at read
    · rename_i parsed
      obtain rfl := Except.ok.inj read
      exact h.within mem (parse?_unquoted parsed)
    · cases read
  refine .bind (kept.yields_align within) fun p aligned => .ok ?_
  obtain ⟨first, second, unit, same⟩ := aligned
  rw [of, unit.lower]
  refine ⟨⟨?_, unit⟩, same⟩
  dsimp only
  split_ifs <;> assumption

theorem OneUnit.yields_extreme (h : OneUnit args common) (better : Float → Float → Bool) :
    Yields (extreme better args settings) Sound :=
  (Yields.bind (h.yields_operand 0 "a") fun _ first => .foldlM _ first fun best _ mem =>
    h.yields_preferred better best (List.mem_of_mem_drop mem)).mono fun _ => Within.toSound

theorem OneUnit.yields_clamp (h : OneUnit args common) : Yields (clamp args settings) Sound := by
  refine .bind .any fun _ _ => .bind (h.yields_operand 0 "value") fun value hv =>
    .bind (h.yields_operand 1 "min") fun low hl => .bind (h.yields_operand 2 "max") fun high hh =>
    .bind (hv.yields_align hl) fun p aligned => ?_
  obtain ⟨first, second, unit, same⟩ := aligned
  have moved : Within common (of p.first p.unit) := by
    rw [of, unit.lower]
    exact ⟨⟨first, unit⟩, same⟩
  refine .bind (moved.yields_align hh) fun q aligned => ?_
  split_ifs
  · exact .error
  · exact .ok ⟨isFinite_clamp first second aligned.2.1, unit⟩

theorem Relabelled.finite (h : Relabelled args d) : d.value.isFinite = true := by
  obtain ⟨x, unit, operand, -, rfl⟩ := h
  exact (args.yields_dimension 0 "value" _ operand).finite

end Finite

/-- What a function computes has a unit that a dimension can have, unless it is the one of `convert`
and has been given another. -/
def Closed (name : String) (compute : Computation) : Prop :=
  ∀ args settings, Yields (compute args settings) fun d =>
    HasUnit d ∨ (name = "convert" ∧ Relabelled args d)

theorem closed_of_yields {name : String} {compute : Computation}
    (h : ∀ args settings, Yields (compute args settings) HasUnit) : Closed name compute :=
  fun args settings => (h args settings).mono fun _ => .inl

theorem closed_functions : ∀ f ∈ functions, Closed f.1.name f.2 := by
  simp only [functions, List.forall_mem_cons, List.not_mem_nil, false_implies, implies_true, and_true]
  refine ⟨closed_of_yields fun _ _ => yields_multiply, closed_of_yields fun _ _ => yields_divide,
    closed_of_yields fun _ _ => yields_add, closed_of_yields fun _ _ => yields_subtract,
    closed_of_yields fun _ _ => yields_roundWith _, closed_of_yields fun _ _ => yields_roundWith _,
    closed_of_yields fun _ _ => yields_roundWith _, closed_of_yields fun _ _ => yields_extreme _,
    closed_of_yields fun _ _ => yields_extreme _, closed_of_yields fun _ _ => yields_clamp, ?_,
    closed_of_yields fun _ _ => yields_mod,
    closed_of_yields fun _ _ => yields_abs.mono fun _ => Sound.unit,
    closed_of_yields fun _ _ => yields_negate.mono fun _ => Sound.unit,
    closed_of_yields fun _ _ => yields_percent⟩
  intro args settings
  exact yields_convert.mono fun _ => Or.imp_right fun relabelled => ⟨rfl, relabelled⟩

/-- A text is read as a dimension, and so it is as an argument at any position. -/
structure ReadAs (text : String) (d : Dimension) : Prop where
  parsed : parse? text = some d
  argument : ∀ (args : Arguments) (position : Nat) (name : String),
    args.texts[position]? = some text → args.dimension position name = .ok d

/-- A function answers with one of the operands, or with its magnitude. -/
inductive Keeps (name : String) (args : Arguments) (d : Dimension) : Prop
  | magnitude (unary : name = "abs" ∨ name = "negate")
  | choice (chosen : name = "min" ∨ name = "max" ∨ name = "clamp")
      (common : String) (same : OneUnit args common)
  | relabelled (h : Relabelled args d)

/-- What is promised of the text that a math function answers with when it computes `d`. -/
structure Answered (name : String) (args : Arguments) (settings : Settings) (d : Dimension)
    (text : String) : Prop where
  written : text = settings.format d.value d.unit
  /-- The unit is one that a dimension can have, unless a bare number was given another. -/
  unit : IsUnit d.unit ∨ (name = "convert" ∧ Relabelled args d)
  /-- A finite number with such a unit can be an operand again, rounded to the places that are set. -/
  operand : IsUnit d.unit → d.value.isFinite = true →
    ∃ x, ReadAs text ⟨x, d.unit⟩ ∧ Decimal.RoundedTo settings.precision d.value x
  /-- Any other number is written as a word, and then the text cannot. -/
  refused : d.value.isFinite = false →
    (∃ word ∈ Decimal.nonFinite, text.toList = word ++ d.unit.toList) ∧ parse? text = none
  /-- What takes over an operand as it is, or its magnitude, is finite. -/
  finite : Keeps name args d → d.value.isFinite = true

theorem sound_magnitude : ∀ f ∈ functions, f.1.name = "abs" ∨ f.1.name = "negate" →
    ∀ args settings, Yields (f.2 args settings) Sound := by
  simp only [functions, List.forall_mem_cons, List.not_mem_nil, false_implies, implies_true, and_true,
    String.reduceEq, or_self, or_true, true_or, true_implies, true_and]
  exact ⟨fun _ _ => yields_abs, fun _ _ => yields_negate⟩

theorem sound_choice : ∀ f ∈ functions, f.1.name = "min" ∨ f.1.name = "max" ∨ f.1.name = "clamp" →
    ∀ args settings common, OneUnit args common → Yields (f.2 args settings) Sound := by
  simp only [functions, List.forall_mem_cons, List.not_mem_nil, false_implies, implies_true, and_true,
    String.reduceEq, or_self, or_true, true_or, true_implies, true_and]
  exact ⟨fun _ _ _ same => same.yields_extreme _, fun _ _ _ same => same.yields_extreme _,
    fun _ _ _ same => same.yields_clamp⟩

variable {info : FunctionInfo} {compute : Computation}

/-- An answer with a unit that a dimension can have is an operand again exactly if the number that was
computed is finite. -/
theorem answers_read_back (mem : (info, compute) ∈ functions)
    (h : written compute args settings = .ok text) :
    ∃ d, compute args settings = .ok d ∧ Answered info.name args settings d text := by
  cases computed : compute args settings with
  | error e =>
    rw [written, computed] at h
    cases h
  | ok d =>
    rw [written, computed] at h
    obtain rfl : settings.format d.value d.unit = text := by cases h; rfl
    have unit := closed_functions _ mem args settings d computed
    have kept : Keeps info.name args d → d.value.isFinite = true := by
      rintro (unary | ⟨chosen, common, same⟩ | relabelled)
      · exact (sound_magnitude _ mem unary args settings d computed).finite
      · exact (sound_choice _ mem chosen args settings common same d computed).finite
      · exact relabelled.finite
    refine ⟨d, rfl, rfl, unit, fun hu hf => ?_, fun hf => ?_, kept⟩
    · obtain ⟨x, parsed, rounded⟩ := parse?_format hu hf settings.precision
      have plain := all_isPlain_format hu settings.precision
      exact ⟨x, ⟨parsed, fun _ _ _ at_ => Arguments.dimension_eq_of_parse? at_ plain parsed⟩, rounded⟩
    · have hu : IsUnit d.unit := by
        rcases unit with hu | ⟨-, relabelled⟩
        · exact hu
        · rw [relabelled.finite] at hf
          cases hf
      exact ⟨⟨_, Decimal.trimmedText_mem_nonFinite hf settings.precision,
        toList_format d settings.precision⟩, parse?_format_of_not_finite hu hf settings.precision⟩

/-- For the sum of a rem and some pixels. -/
theorem answers_read_back_add :
    (⟨"add", .math, "add(a, b)", "Sum in the left operand's unit"⟩, add) ∈ functions ∧
      written add ⟨["1rem", "8px"]⟩ .builtin = .ok "1.5rem" ∧
      ∃ d, add ⟨["1rem", "8px"]⟩ .builtin = .ok d ∧
        Answered "add" ⟨["1rem", "8px"]⟩ .builtin d "1.5rem" := by
  have mem : (⟨"add", .math, "add(a, b)", "Sum in the left operand's unit"⟩, add) ∈ functions := by
    simp [functions]
  have sum : written add ⟨["1rem", "8px"]⟩ .builtin = .ok "1.5rem" := by decide +kernel
  exact ⟨mem, sum, answers_read_back mem sum⟩

/-- A divisor that is not zero before it is converted and zero afterwards, a sum beyond all doubles, and
a unit of exclamation marks: none of the answers is a dimension. -/
theorem answers_not_read :
    Settings.builtin.isValid = true ∧
      written divide ⟨["1rem", "5e-324px"]⟩ .builtin = .ok "inf" ∧ parse? "inf" = none ∧
      written mod ⟨["1rem", "5e-324px"]⟩ .builtin = .ok "NaNrem" ∧ parse? "NaNrem" = none ∧
      written add ⟨["1e308", "1e308"]⟩ .builtin = .ok "inf" ∧
      written convert ⟨["5", "!!"]⟩ .builtin = .ok "5!!" ∧ parse? "5!!" = none := by
  decide +kernel

end DesignTokens.MathFunctions
