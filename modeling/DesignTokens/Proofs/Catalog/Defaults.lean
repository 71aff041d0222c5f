import DesignTokens.Catalog.TypographyFunctions
import DesignTokens.Proofs.Binary64.Interval
import DesignTokens.Proofs.Catalog.Arguments
import DesignTokens.Proofs.Settings.Layers

/-!
# Settings in place of arguments

A scale without a ratio takes the one that is set, and a fluid size without viewports takes those that
are set. The viewports of valid settings always do. The ratio need not: `Settings.validate` does not look
at it, and a text that is no ratio makes every scale fail that relies on it.

A scale is some reading of arguments, then a ratio, then a text (`answers_of_explicit`), so what another
ratio answers shows that the reading succeeds.
-/

namespace DesignTokens

/-- Nothing fails because of the value of an argument. -/
def Spares {α : Type} (x : Except FunctionError α) (name : String) : Prop :=
  ∀ reason, x ≠ .error (.invalidArgument name reason)

namespace Spares

variable {α β : Type} {x : Except FunctionError α} {f : α → Except FunctionError β} {name : String}

theorem ok {a : α} : Spares (.ok a) name := by
  intro reason h
  cases h

/-- A failure for another reason. -/
theorem error {e : FunctionError} (h : ∀ reason, e ≠ .invalidArgument name reason) :
    Spares (.error e : Except FunctionError α) name :=
  fun reason same => h reason (Except.error.inj same)

theorem bind (hx : Spares x name) (hf : ∀ a, Spares (f a) name) : Spares (x >>= f) name := by
  cases x with
  | error e => exact .error fun reason same => hx reason (congrArg Except.error same)
  | ok a => exact hf a

end Spares

namespace Arguments

variable {α : Type} {name : String}

theorem spares_atMost (args : Arguments) (most : ℕ) : Spares (args.atMost most) name := by
  rw [atMost]
  split
  · exact .error (by simp)
  · exact .ok

theorem spares_dimension (args : Arguments) (position : ℕ) (label : String) :
    Spares (args.dimension position label) name := by
  refine .bind ?_ fun text => ?_
  · rw [required]
    split
    · exact .ok
    · exact .error (by simp)
  · rw [readDimension]
    split
    · exact .ok
    · exact .error (by simp)

theorem spares_orElse {read : String → Except FunctionError α} (h : ∀ text, Spares (read text) name)
    (args : Arguments) (position : ℕ) (absent : α) :
    Spares (args.orElse position absent read) name := by
  rw [orElse]
  split
  · exact h _
  · exact .ok

/-- The arguments with a text as the third. -/
def withThird (args : Arguments) (text : String) : Arguments :=
  ⟨args.texts.getD 0 "" :: args.texts.getD 1 "" :: text :: args.texts.drop 3⟩

/-- An argument that is filled up with the empty text stays absent. -/
theorem optional?_withThird (args : Arguments) (text : String) {position : ℕ} (h : position < 2) :
    (args.withThird text).optional? position = args.optional? position := by
  have blank : Text.unquoted "" = "" := by decide
  obtain rfl | rfl : position = 0 ∨ position = 1 := by omega
  all_goals
    simp only [optional?, withThird, List.getD_eq_getElem?_getD, List.getElem?_cons_zero,
      List.getElem?_cons_succ]
  · cases args.texts[0]? <;> simp [blank]
  · cases args.texts[1]? <;> simp [blank]

/-- A third argument is not one too many. -/
theorem atMost_withThird (args : Arguments) (text : String) :
    (args.withThird text).atMost 3 = args.atMost 3 := by
  have count : (args.withThird text).count = max 3 args.count := by
    simp only [Arguments.count, withThird, List.length_cons, List.length_drop]
    omega
  rw [atMost, atMost, count]
  by_cases few : args.count ≤ 3
  · rw [max_eq_left few, if_neg (Nat.lt_irrefl 3), if_neg (Nat.not_lt.2 few)]
  · rw [max_eq_right (Nat.le_of_not_le few)]

end Arguments

namespace TypographyFunctions

open Arguments

variable {args : Arguments} {settings : Settings} {text name : String}

section Ratio

/-- A ratio is written by its name, in any letter case, or as a positive number. -/
def IsRatio (text : String) : Prop :=
  (∃ ratio, named? namedRatios text = some ratio) ∨
    ∃ ratio, Decimal.readFloat? text.toList = some ratio ∧ ratio.isFinite = true ∧ 0 < ratio

theorem readRatio_of_isRatio (h : IsRatio text) : ∃ ratio, readRatio text = .ok ratio := by
  rw [readRatio]
  cases known : named? namedRatios text with
  | some ratio => exact ⟨ratio, rfl⟩
  | none =>
    obtain ⟨ratio, named⟩ | ⟨ratio, read, finite, positive⟩ := h
    · rw [known] at named
      cases named
    · simp [read, finite, positive]

theorem readRatio_of_not_isRatio (h : ¬IsRatio text) :
    readRatio text = .error (.unknownRatio text) := by
  rw [readRatio]
  split
  · rename_i ratio named
    exact absurd (.inl ⟨ratio, named⟩) h
  · split
    · rename_i ratio read
      split
      · rename_i positive
        rw [Bool.and_eq_true, decide_eq_true_eq] at positive
        exact absurd (.inr ⟨ratio, read, positive⟩) h
      · rfl
    · rfl

theorem spares_readRatio (text : String) : Spares (readRatio text) name := by
  by_cases h : IsRatio text
  · obtain ⟨ratio, read⟩ := readRatio_of_isRatio h
    rw [read]
    exact .ok
  · rw [readRatio_of_not_isRatio h]
    exact .error (by simp)

end Ratio

section Scales

/-- What a function answers that reads arguments and then a ratio: with an explicit ratio that works, and
no ratio in its place, it is up to the ratio that is set. -/
theorem answers_of_explicit {α : Type} {body : FunctionBody}
    {read : Arguments → Except FunctionError α} {write : α → Float → String} {ratio answer : String}
    (shape : ∀ args, body args settings = do
      let found ← read args
      let ratio ← ratioAt args settings 2
      pure (write found ratio))
    (same : read (args.withThird ratio) = read args) (absent : args.optional? 2 = none)
    (explicit : body (args.withThird ratio) settings = .ok answer) :
    (IsRatio settings.defaultRatio → ∃ answer, body args settings = .ok answer) ∧
      (¬IsRatio settings.defaultRatio →
        body args settings = .error (.unknownRatio settings.defaultRatio)) := by
  rw [shape, same] at explicit
  have default : ratioAt args settings 2 = readRatio settings.defaultRatio := by
    rw [ratioAt, absent, Option.getD_none]
  rw [shape, default]
  obtain ⟨found, reads, -⟩ := Json.bind_eq_ok explicit
  rw [reads]
  constructor
  · intro h
    obtain ⟨ratio, known⟩ := readRatio_of_isRatio h
    exact ⟨write found ratio, by rw [known]; rfl⟩
  · intro h
    rw [readRatio_of_not_isRatio h]
    rfl

/-- What a modular scale reads before the ratio. -/
def modularArguments (args : Arguments) : Except FunctionError (Dimension × Float) := do
  args.atMost 3
  let base ← args.dimension 0 "base"
  let step ← args.number 1 "step"
  pure (base, step)

theorem modularArguments_withThird (args : Arguments) (text : String) :
    modularArguments (args.withThird text) = modularArguments args := by
  rw [modularArguments, modularArguments, args.atMost_withThird,
    dimension_eq_of_optional? (args.optional?_withThird text Nat.zero_lt_two),
    number_eq_of_optional? (args.optional?_withThird text Nat.one_lt_two)]

theorem modularScale_eq (args : Arguments) (settings : Settings) :
    modularScale args settings = (do
      let found ← modularArguments args
      let ratio ← ratioAt args settings 2
      pure (settings.format (found.1.value * Float.pow ratio found.2) found.1.unit)) := by
  simp only [modularScale, modularArguments, bind_assoc, pure_bind]

/-- What a type scale reads before the ratio. -/
def typeArguments (args : Arguments) : Except FunctionError (Dimension × Int) := do
  args.atMost 3
  let name ← args.required 0 "step"
  match named? typeSteps name with
  | none => .error (.unknownStep name)
  | some step => do
    let base ← args.orElse 1 (.of 1 "rem") readDimension
    pure (base, step)

theorem typeArguments_withThird (args : Arguments) (text : String) :
    typeArguments (args.withThird text) = typeArguments args := by
  rw [typeArguments, typeArguments, args.atMost_withThird,
    required_eq_of_optional? (args.optional?_withThird text Nat.zero_lt_two),
    orElse_eq_of_optional? (args.optional?_withThird text Nat.one_lt_two)]

theorem typeScale_eq (args : Arguments) (settings : Settings) :
    typeScale args settings = (do
      let found ← typeArguments args
      let ratio ← ratioAt args settings 2
      pure (settings.format (found.1.value * Binary64.wholePower ratio found.2) found.1.unit)) := by
  simp only [typeScale, typeArguments, bind_assoc]
  congr 1
  funext _
  congr 1
  funext name
  cases named? typeSteps name with
  | none => rfl
  | some step => simp only [bind_assoc, pure_bind]

end Scales

section Viewports

/-- No viewports are given, neither by options nor by arguments before them. -/
structure NoViewports (args : Arguments) : Prop where
  options : ∀ options, args.options? = some options →
    KeyedList.get? options "minViewport" = none ∧ KeyedList.get? options "maxViewport" = none
  positions : ∀ position ∈ [2, 3], position < args.positionalCount → args.optional? position = none

theorem viewport_of_absent {options : KeyedList Json} {key : String} {position : ℕ}
    (h : KeyedList.get? options key = none)
    (absent : position < args.positionalCount → args.optional? position = none) (default : Float) :
    viewport args settings options key position default = .ok default := by
  rw [viewport, h]
  dsimp only
  split
  · rfl
  · rename_i within
    rw [orElse, absent (Nat.lt_of_not_le within)]

/-- The largest viewport of valid settings is beyond the smallest one. -/
theorem viewports_apart (h : settings.validate = .ok ()) :
    ¬settings.maxViewport ≤ settings.minViewport := by
  obtain ⟨-, -, ⟨finiteLow, -⟩, finiteHigh, apart⟩ := Settings.validate_eq_ok_iff.1 h
  obtain ⟨low, hlow⟩ := Binary64.isFinite_iff.1 finiteLow
  obtain ⟨high, hhigh⟩ := Binary64.isFinite_iff.1 finiteHigh
  rw [Binary64.value?_le_iff hhigh hlow]
  exact not_le_of_gt ((Binary64.lt_iff hlow hhigh).1 apart)

/-- Where none are given, the viewports are those of the settings. -/
theorem viewports_of_absent (h : settings.validate = .ok ()) (absent : NoViewports args) :
    viewports args settings 2 = .ok (settings.minViewport, settings.maxViewport) := by
  have missing : KeyedList.get? (args.options?.getD []) "minViewport" = none ∧
      KeyedList.get? (args.options?.getD []) "maxViewport" = none := by
    cases given : args.options? with
    | none => exact ⟨rfl, rfl⟩
    | some options => exact absent.options options given
  have low : viewport args settings (args.options?.getD []) "minViewport" 2 settings.minViewport =
      .ok settings.minViewport := viewport_of_absent missing.1 (absent.positions 2 (by simp)) _
  have high : viewport args settings (args.options?.getD []) "maxViewport" 3 settings.maxViewport =
      .ok settings.maxViewport := viewport_of_absent missing.2 (absent.positions 3 (by simp)) _
  simp only [viewports, low, high, bind, Except.bind, if_neg (viewports_apart h)]

theorem spares_lengthPx (settings : Settings) (d : Dimension) : Spares (lengthPx settings d) name := by
  rw [lengthPx]
  split
  · exact .ok
  · split
    · exact .ok
    · exact .error (by simp)

theorem spares_argumentPx (args : Arguments) (settings : Settings) (position : ℕ) (label : String) :
    Spares (argumentPx args settings position label) name :=
  .bind (args.spares_dimension position label) fun d => spares_lengthPx settings d

/-- With viewports that are in order, a fluid size does not blame an argument for its value. -/
theorem spares_fluid {body : FunctionBody} {bounds : Float × Float}
    (mem : body ∈ [fluidType, fluidSpace, responsiveType])
    (h : viewports args settings 2 = .ok bounds) : Spares (body args settings) name := by
  have given : Spares (viewports args settings 2) name := by
    rw [h]
    exact .ok
  simp only [List.mem_cons, List.not_mem_nil, or_false] at mem
  obtain rfl | rfl | rfl := mem
  · exact .bind (args.spares_atMost 4) fun _ => .bind (spares_argumentPx args settings 0 "min") fun _ =>
      .bind (spares_argumentPx args settings 1 "max") fun _ => .bind given fun _ => .ok
  · exact .bind (args.spares_atMost 4) fun _ => .bind (args.spares_dimension 0 "min") fun least =>
      .bind (args.spares_dimension 1 "max") fun most => .bind (spares_lengthPx settings least) fun _ =>
        .bind (spares_lengthPx settings most) fun _ => .bind given fun _ => .ok
  · refine .bind (args.spares_atMost 4) fun _ =>
      .bind (spares_argumentPx args settings 0 "base") fun _ => ?_
    dsimp only
    split
    · exact .bind (args.spares_orElse spares_readRatio 1 1.25) fun _ => .bind given fun _ => .ok
    · exact .bind .ok fun _ => .bind given fun _ => .ok

end Viewports

/-- A scale without a ratio that would answer with some ratio answers exactly if the text that is set
writes a ratio, and else fails with this text as an unknown ratio. A fluid size without viewports takes
those of valid settings, and never fails because of its largest viewport. -/
theorem settings_stand_in (settings : Settings) :
    (∀ body ∈ [modularScale, typeScale], ∀ (args : Arguments) (ratio answer : String),
      args.optional? 2 = none → body (args.withThird ratio) settings = .ok answer →
        (IsRatio settings.defaultRatio → ∃ answer, body args settings = .ok answer) ∧
          (¬IsRatio settings.defaultRatio →
            body args settings = .error (.unknownRatio settings.defaultRatio))) ∧
      (settings.validate = .ok () →
        ∀ body ∈ [fluidType, fluidSpace, responsiveType], ∀ args, NoViewports args →
          viewports args settings 2 = .ok (settings.minViewport, settings.maxViewport) ∧
            ∀ reason, body args settings ≠ .error (.invalidArgument "maxViewport" reason)) := by
  constructor
  · intro body mem args ratio answer absent explicit
    simp only [List.mem_cons, List.not_mem_nil, or_false] at mem
    obtain rfl | rfl := mem
    · exact answers_of_explicit (fun args => modularScale_eq args settings)
        (modularArguments_withThird args ratio) absent explicit
    · exact answers_of_explicit (fun args => typeScale_eq args settings)
        (typeArguments_withThird args ratio) absent explicit
  · intro valid body mem args absent
    have given := viewports_of_absent valid absent
    exact ⟨given, spares_fluid mem given⟩

theorem settings_stand_in_builtin :
    let scale : Arguments := ⟨["xl"]⟩
    let size : Arguments := ⟨["1rem", "2rem"]⟩
    typeScale (scale.withThird "2") .builtin = .ok "4rem" ∧
      (∃ answer, typeScale scale .builtin = .ok answer) ∧
        Settings.builtin.validate = .ok () ∧ NoViewports size ∧
          ∀ reason, fluidType size .builtin ≠ .error (.invalidArgument "maxViewport" reason) := by
  intro scale size
  obtain ⟨scales, sizes⟩ := settings_stand_in .builtin
  have explicit : typeScale (scale.withThird "2") .builtin = .ok "4rem" := by decide +kernel
  have ratio : IsRatio Settings.builtin.defaultRatio := .inl ⟨1.25, by decide +kernel⟩
  have absent : NoViewports size := by
    have none : size.options? = none := by decide +kernel
    refine ⟨fun options given => ?_, by decide +kernel⟩
    rw [none] at given
    cases given
  exact ⟨explicit, (scales typeScale (by simp) scale "2" "4rem" rfl explicit).1 ratio,
    Settings.validate_builtin, absent,
    (sizes Settings.validate_builtin fluidType (by simp) size absent).2⟩

/-- Settings can be valid although no scale works with the ratio that they set. -/
theorem valid_settings_without_ratio :
    let settings : Settings := { Settings.builtin with defaultRatio := "wobbly" }
    let scale : Arguments := ⟨["1rem", "1"]⟩
    let step : Arguments := ⟨["xl"]⟩
    settings.validate = .ok () ∧
      ((∃ answer, modularScale (scale.withThird "1.25") settings = .ok answer) ∧
        modularScale scale settings = .error (.unknownRatio "wobbly")) ∧
      typeScale (step.withThird "2") settings = .ok "4rem" ∧
        typeScale step settings = .error (.unknownRatio "wobbly") := by
  intro settings scale step
  have found : modularArguments (scale.withThird "1.25") = .ok (.of 1 "rem", 1) := by decide +kernel
  have ratio : ratioAt (scale.withThird "1.25") settings 2 = .ok 1.25 := by decide +kernel
  have explicit : ∃ answer, modularScale (scale.withThird "1.25") settings = .ok answer := by
    rw [modularScale_eq, found, ratio]
    exact ⟨_, rfl⟩
  exact ⟨(Settings.validate_defaultRatio _ _).trans Settings.validate_builtin,
    ⟨explicit, by decide +kernel⟩, by decide +kernel, by decide +kernel⟩

end TypographyFunctions

end DesignTokens
