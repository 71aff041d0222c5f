import DesignTokens.Proofs.Json.Canonical
import DesignTokens.Settings.Document

/-!
# Layers of settings

The built-in settings lie at the bottom, the variables of the environment above them and a document on
top. A layer sets some of the settings, and `Layer.over` shows those below where it sets nothing.

Variables and documents are read one setting at a time, and the outcome is validated as a whole.
Variables that make a bad combination are dropped together, and a document that does is refused, so
whatever comes out is valid.
-/

namespace DesignTokens

theorem Traced.value_map {α β : Type} (f : α → β) (x : Traced α) : (f <$> x).value = f x.value := rfl

namespace Settings

section Validation

/-- A refusal up front passes exactly if there is nothing to refuse and the rest passes. -/
theorem refuse_eq_ok_iff {ε : Type} {bad : Prop} [Decidable bad] {fault : ε} {rest : Except ε Unit} :
    (if bad then .error fault else rest) = .ok () ↔ ¬bad ∧ rest = .ok () := by
  split
  · rename_i refused
    simp [refused]
  · rename_i passed
    simp [passed]

/-- What `validate` asks of the settings. -/
theorem validate_eq_ok_iff {s : Settings} :
    s.validate = .ok () ↔
      (s.baseFontSize.isFinite = true ∧ 0 < s.baseFontSize) ∧ s.precision ≤ maxPrecision ∧
        (s.minViewport.isFinite = true ∧ 0 ≤ s.minViewport) ∧
          s.maxViewport.isFinite = true ∧ s.minViewport < s.maxViewport := by
  simp only [validate, refuse_eq_ok_iff]
  simp

/-- Whether the settings are valid does not depend on the ratio. -/
theorem validate_defaultRatio (s : Settings) (ratio : String) :
    { s with defaultRatio := ratio }.validate = s.validate := rfl

theorem validate_builtin : builtin.validate = .ok () := rfl

end Validation

/-- Some of the settings. -/
structure Layer where
  baseFontSize : Option Float
  precision : Option Nat
  minViewport : Option Float
  maxViewport : Option Float
  defaultRatio : Option String
  cssPassthrough : Option (List String)

/-- The settings of a layer, and the ones below it where it sets nothing. -/
def Layer.over (layer : Layer) (below : Settings) : Settings where
  baseFontSize := layer.baseFontSize.getD below.baseFontSize
  precision := layer.precision.getD below.precision
  minViewport := layer.minViewport.getD below.minViewport
  maxViewport := layer.maxViewport.getD below.maxViewport
  defaultRatio := layer.defaultRatio.getD below.defaultRatio
  cssPassthrough := layer.cssPassthrough.getD below.cssPassthrough

section Environment

variable {env : String → Option String}

/-- The variables that are set and read as values of their settings. -/
def environmentLayer (env : String → Option String) : Layer where
  baseFontSize := (env "DTK_BASE_FONT_SIZE").bind fun text => Decimal.readFloat? text.toList
  precision :=
    (env "DTK_PRECISION").bind fun text => Decimal.readNat? Decimal.maxWord32 text.toList
  minViewport := (env "DTK_MIN_VIEWPORT").bind fun text => Decimal.readFloat? text.toList
  maxViewport := (env "DTK_MAX_VIEWPORT").bind fun text => Decimal.readFloat? text.toList
  defaultRatio := env "DTK_DEFAULT_RATIO"
  cssPassthrough := none

theorem overlay_eq (env : String → Option String) :
    overlay env = (environmentLayer env).over builtin := rfl

theorem fromEnvironment_of_valid (h : (overlay env).validate = .ok ()) :
    fromEnvironment env = pure (overlay env) := by
  simp only [fromEnvironment, h]

theorem fromEnvironment_of_fault {fault : Fault} (h : (overlay env).validate = .error fault) :
    fromEnvironment env = ⟨builtin, [.noted (ignoredEvent fault)]⟩ := by
  simp only [fromEnvironment, h]
  rfl

/-- The settings of the environment are valid, whatever the variables say. -/
theorem validate_fromEnvironment (env : String → Option String) :
    (fromEnvironment env).value.validate = .ok () := by
  cases h : (overlay env).validate with
  | ok _ => rw [fromEnvironment_of_valid h, Traced.value_pure, h]
  | error fault => rw [fromEnvironment_of_fault h, validate_builtin]

end Environment

section Document

variable {α : Type} {document : KeyedList Toml.Value} {key : String} {read : Toml.Value → Option α}
  {x : Option α} {absent result : Traced Settings} {env : String → Option String} {text : String}
  {settings : Settings}

/-- What a document says of a setting: nothing without the key, and else what its value reads as. -/
inductive Sets (document : KeyedList Toml.Value) (key : String) (read : Toml.Value → Option α) :
    Option α → Prop where
  | absent (h : KeyedList.get? document key = none) : Sets document key read none
  | present {value : Toml.Value} {x : α} (h : KeyedList.get? document key = some value)
      (kind : read value = some x) : Sets document key read (some x)

theorem field_eq_ok_iff : field document key read = .ok x ↔ Sets document key read x := by
  constructor
  · intro h
    rw [field] at h
    split at h
    · rename_i free
      cases h
      exact .absent free
    · rename_i value found
      split at h
      · rename_i kind
        cases h
        exact .present found kind
      · cases h
  · intro h
    cases h with
    | absent free => simp only [field, free]
    | present found kind => simp only [field, found, kind]

/-- A layer sets what a document sets, and every value is of the kind of its setting. -/
structure Layer.OfDocument (layer : Layer) (document : KeyedList Toml.Value) : Prop where
  baseFontSize : Sets document "base_font_size" floatValue? layer.baseFontSize
  precision : Sets document "precision" wordValue? layer.precision
  minViewport : Sets document "min_viewport" floatValue? layer.minViewport
  maxViewport : Sets document "max_viewport" floatValue? layer.maxViewport
  defaultRatio : Sets document "default_ratio" textValue? layer.defaultRatio
  cssPassthrough : Sets document "css_passthrough" textValues? layer.cssPassthrough

/-- A document of the right kinds is a layer over what it leaves absent. -/
theorem ofDocument_eq_ok_iff :
    ofDocument document absent = .ok result ↔
      ∃ layer : Layer, layer.OfDocument document ∧ result = layer.over <$> absent := by
  constructor
  · intro h
    obtain ⟨baseFontSize, base, h⟩ := Json.bind_eq_ok h
    obtain ⟨precision, places, h⟩ := Json.bind_eq_ok h
    obtain ⟨minViewport, least, h⟩ := Json.bind_eq_ok h
    obtain ⟨maxViewport, greatest, h⟩ := Json.bind_eq_ok h
    obtain ⟨defaultRatio, ratio, h⟩ := Json.bind_eq_ok h
    obtain ⟨cssPassthrough, names, h⟩ := Json.bind_eq_ok h
    refine ⟨⟨baseFontSize, precision, minViewport, maxViewport, defaultRatio, cssPassthrough⟩,
      ⟨?_, ?_, ?_, ?_, ?_, ?_⟩, (Except.ok.inj h).symm⟩
    all_goals exact field_eq_ok_iff.1 ‹_›
  · rintro ⟨layer, sets, rfl⟩
    simp only [ofDocument, field_eq_ok_iff.2 sets.baseFontSize, field_eq_ok_iff.2 sets.precision,
      field_eq_ok_iff.2 sets.minViewport, field_eq_ok_iff.2 sets.maxViewport,
      field_eq_ok_iff.2 sets.defaultRatio, field_eq_ok_iff.2 sets.cssPassthrough]
    rfl

/-- A text gives settings exactly if it is a document of the right kinds that is valid as a layer over
the settings of the environment. -/
theorem parse_eq_ok_iff :
    (parse env text).value = .ok settings ↔
      ∃ document, Toml.parse text = .ok document ∧
        ∃ layer : Layer, layer.OfDocument document ∧
          settings = layer.over (fromEnvironment env).value ∧ settings.validate = .ok () := by
  constructor
  · intro h
    rw [parse] at h
    split at h
    · cases h
    · rename_i document read
      split at h
      · cases h
      · rename_i result kinds
        obtain ⟨layer, sets, rfl⟩ := ofDocument_eq_ok_iff.1 kinds
        rw [Traced.value_bind, Traced.value_map] at h
        split at h
        · cases h
        · rename_i valid
          cases h
          exact ⟨document, read, layer, sets, rfl, valid⟩
  · rintro ⟨document, read, layer, sets, rfl, valid⟩
    have kinds : ofDocument document (fromEnvironment env) = .ok (layer.over <$> fromEnvironment env) :=
      ofDocument_eq_ok_iff.2 ⟨layer, sets, rfl⟩
    simp only [parse, read, kinds, Traced.value_bind, Traced.value_map, valid, Traced.value_pure]

end Document

end Settings

end DesignTokens
