import DesignTokens.Engine.Basic
import DesignTokens.Proofs.Settings.Layers

/-!
# How engines come to be

An engine is built from the environment or from given settings, and then functions are registered and
removed. Settings are validated before they come into an engine and never change in it, so the
functions of the catalog only ever see settings that `Settings.validate` accepts.
-/

namespace DesignTokens

namespace Engine

variable {catalog : Catalog} {settings : Settings} {engine extended : Engine} {info : FunctionInfo}
  {body : FunctionBody}

/-- The engines that can be built. -/
inductive Constructed : Engine → Prop where
  | ofEnvironment (env : String → Option String) : Constructed (Engine.ofEnvironment env).value
  | ofSettings {settings : Settings} {engine : Engine} (h : Engine.ofSettings settings = .ok engine) :
    Constructed engine
  | create {catalog : Catalog} {settings : Settings} {engine : Engine}
    (h : Engine.create catalog settings = .ok engine) : Constructed engine
  | register {engine extended : Engine} {info : FunctionInfo} {body : FunctionBody}
    (h : Constructed engine) (added : engine.register info body = .ok extended) :
    Constructed extended
  | unregister {engine : Engine} (h : Constructed engine) (name : String) :
    Constructed (engine.unregister name)

theorem create_eq_ok_iff :
    create catalog settings = .ok engine ↔
      settings.validate = .ok () ∧ engine = ⟨catalog, settings⟩ := by
  constructor
  · intro h
    obtain ⟨_, valid, h⟩ := Json.bind_eq_ok h
    exact ⟨valid, (Except.ok.inj h).symm⟩
  · rintro ⟨valid, rfl⟩
    rw [create, valid]
    rfl

/-- A new function leaves the settings as they are. -/
theorem settings_register (h : engine.register info body = .ok extended) :
    extended.settings = engine.settings := by
  obtain ⟨catalog, -, h⟩ := Json.bind_eq_ok h
  cases h
  rfl

/-- The settings of an engine are valid. -/
theorem Constructed.validate (h : Constructed engine) : engine.settings.validate = .ok () := by
  induction h with
  | ofEnvironment env => exact Settings.validate_fromEnvironment env
  | ofSettings built =>
    obtain ⟨valid, rfl⟩ := create_eq_ok_iff.1 built
    exact valid
  | create built =>
    obtain ⟨valid, rfl⟩ := create_eq_ok_iff.1 built
    exact valid
  | register _ added ih => rw [settings_register added, ih]
  | unregister _ _ ih => exact ih

end Engine

open Settings

/-- A document of one line. The values of a document are read by two functions in turn, so this is taken
apart into what each reader answers. -/
theorem Toml.parse_precision : Toml.parse "precision=2" = .ok [("precision", .integer 2)] := by
  have key : Toml.readKey "precision=2".toList = .ok ⟨["precision"], ['=', '2'], by decide⟩ := by
    rw [Toml.readKey, Toml.readKeyParts]
    rfl
  have value : Toml.readValue Toml.maxDepth (Toml.skipSpaces ['2']) =
      .ok ⟨.integer 2, [], by decide⟩ := by
    rw [Toml.readValue.eq_def]
    rfl
  have statement : Toml.readStatement "precision=2".toList =
      .ok ⟨.assign ["precision"] (.integer 2), [], by decide⟩ := by
    rw [Toml.readStatement]
    · simp only [key, bind, Except.bind, value]
      rfl
    all_goals nofun
  have statements : Toml.readStatements "precision=2".toList =
      .ok [.assign ["precision"] (.integer 2)] := by
    rw [Toml.readStatements]
    change (do
      let statement ← Toml.readStatement "precision=2".toList
      let statements ← Toml.readStatements statement.rest
      .ok (statement.value :: statements)) = _
    rw [statement]
    change (do
      let statements ← Toml.readStatements []
      .ok (Toml.Statement.assign ["precision"] (.integer 2) :: statements)) = _
    rw [Toml.readStatements]
    rfl
  rw [Toml.parse]
  change (do
    let statements ← Toml.readStatements "precision=2".toList
    _) = _
  rw [statements]
  rfl

/-- The variables that are set and read as values of their settings override the built-in settings
together, or not at all and with one warning if the result is not valid. A text gives settings exactly
if it is a document of the right kinds that is valid as a layer over them. So the settings of every
engine are valid. -/
theorem settings_valid_at_every_layer :
    (∀ env : String → Option String,
      (((environmentLayer env).over builtin).validate = .ok () ∧
          fromEnvironment env = pure ((environmentLayer env).over builtin) ∨
        ∃ fault, ((environmentLayer env).over builtin).validate = .error fault ∧
          fromEnvironment env = ⟨builtin, [.noted (ignoredEvent fault)]⟩ ∧
            (ignoredEvent fault).code.text = "W012") ∧
      (fromEnvironment env).value.validate = .ok ()) ∧
    (∀ env text settings, (parse env text).value = .ok settings ↔
      ∃ document, Toml.parse text = .ok document ∧
        ∃ layer : Layer, layer.OfDocument document ∧
          settings = layer.over (fromEnvironment env).value ∧ settings.validate = .ok ()) ∧
    ∀ engine, Engine.Constructed engine → engine.settings.validate = .ok () := by
  refine ⟨fun env => ⟨?_, validate_fromEnvironment env⟩, fun env text settings => parse_eq_ok_iff,
    fun engine h => h.validate⟩
  rw [← overlay_eq]
  cases h : (overlay env).validate with
  | ok _ => exact .inl ⟨rfl, fromEnvironment_of_valid h⟩
  | error fault => exact .inr ⟨fault, rfl, fromEnvironment_of_fault h, rfl⟩

theorem settings_valid_at_every_layer_narrow :
    let env (name : String) := if name = "DTK_MAX_VIEWPORT" then some "200" else none
    let settings : Settings := { builtin with precision := 2 }
    (∃ fault, ((environmentLayer env).over builtin).validate = .error fault ∧
        fromEnvironment env = ⟨builtin, [.noted (ignoredEvent fault)]⟩) ∧
      (parse env "precision=2").value = .ok settings ∧
        ∃ engine, Engine.ofSettings settings = .ok engine ∧
          (engine.unregister "mix").settings.validate = .ok () := by
  intro env settings
  obtain ⟨environments, documents, engines⟩ := settings_valid_at_every_layer
  have valid : settings.validate = .ok () := validate_eq_ok_iff.2 (by decide +kernel)
  obtain ⟨overridden, -⟩ | ⟨fault, invalid, dropped, -⟩ := (environments env).1
  · exact absurd (validate_eq_ok_iff.1 overridden) (by decide +kernel)
  have built : Engine.ofSettings settings = .ok ⟨.builtin, settings⟩ :=
    Engine.create_eq_ok_iff.2 ⟨valid, rfl⟩
  refine ⟨⟨fault, invalid, dropped⟩, (documents env _ settings).2 ⟨_, Toml.parse_precision, ?_⟩, _,
    built, engines _ (.unregister (.ofSettings built) "mix")⟩
  refine ⟨⟨none, some 2, none, none, none, none⟩, ?_, ?_, valid⟩
  · exact ⟨.absent rfl, .present rfl rfl, .absent rfl, .absent rfl, .absent rfl, .absent rfl⟩
  · rw [dropped]
    rfl

end DesignTokens
