import DesignTokens.Catalog.Builtin
import DesignTokens.Engine.Report
import DesignTokens.Engine.Walk
import DesignTokens.Settings.Environment

/-!
# The engine

An engine holds a catalog and settings, and resolves single values and whole trees with them. Besides
the result it answers with a report and with the events that go to the log.
-/

namespace DesignTokens

/-- The result of a resolution. -/
structure Outcome (α : Type) where
  value : α
  report : Report
  /-- The events for a log of every level, in order. -/
  log : List Event

/-- A function catalog and the settings its functions work with. -/
structure Engine where
  catalog : Catalog
  settings : Settings

namespace Engine

/-- The engine of a catalog, unless its functions cannot work with the settings. -/
def create (catalog : Catalog) (settings : Settings) : Except Settings.Fault Engine := do
  settings.validate
  pure ⟨catalog, settings⟩

/-- The engine of the built-in catalog, unless its functions cannot work with the settings. -/
def ofSettings (settings : Settings) : Except Settings.Fault Engine := create .builtin settings

/-- The engine of the built-in catalog with the settings that some variables give. -/
def ofEnvironment (env : String → Option String) : Traced Engine := do
  let settings ← Settings.fromEnvironment env
  pure ⟨.builtin, settings⟩

/-- The event of a function that was registered. -/
def registeredEvent (info : FunctionInfo) : Event :=
  ((Event.success .functionRegistered "Function registered").note "name" info.name).note
    "family" info.family.name

/-- The event of a function that was to be removed. -/
def unregisteredEvent (name : String) (existed : Bool) : Event :=
  ((Event.debug .plainDebug "Function unregistered").note "name" name).note
    "existed" (if existed then "true" else "false")

/-- The engine with one more function. -/
def register (engine : Engine) (info : FunctionInfo) (body : FunctionBody) :
    Except CatalogError Engine := do
  let catalog ← engine.catalog.register info body
  pure { engine with catalog := catalog }

/-- The engine without the function of a name. -/
def unregister (engine : Engine) (name : String) : Engine :=
  { engine with catalog := (engine.catalog.unregister name).2 }

/-- What values are resolved against in a tree. -/
def scope (engine : Engine) (tree : Tree) : Scope := ⟨engine.catalog, engine.settings, tree⟩

/-- The event of a value that was resolved. -/
def valueResolvedEvent (stats : ResolutionStats) : Event :=
  (Event.success .valueResolved "Value resolved").note "warnings" (toString stats.unresolved)

/-- Resolves one value against a tree. -/
def resolveOne (engine : Engine) (tree : Tree) (value : Json) : Outcome Json :=
  let (resolved, recorder) := (engine.scope tree).process value (.start (some .debug))
  let stats : ResolutionStats :=
    { visited := 1
      changed := if resolved = value then 0 else 1
      unresolved := if recorder.collector.hasWarnings then 1 else 0 }
  ⟨resolved, ⟨stats, recorder.collector⟩, recorder.log.toList ++ [valueResolvedEvent stats]⟩

/-- Resolves every token of a tree. -/
def resolveAll (engine : Engine) (tree : Tree) : Outcome Tree :=
  let (resolved, walker) := tree.walk (engine.scope tree) (.start (some .debug))
  ⟨resolved, ⟨walker.stats, walker.recorder.collector⟩, walker.recorder.log.toList⟩

/-- The event of a tree that was resolved in some milliseconds. -/
def treeResolvedEvent (stats : ResolutionStats) (milliseconds : Nat) : Event :=
  ((((Event.success .treeResolved "Token tree resolved").note
    "tokens" (toString stats.visited)).note
    "changed" (toString stats.changed)).note
    "unresolved" (toString stats.unresolved)).note
    "duration_ms" (toString milliseconds)

/-- Resolves every token of a JSON document. -/
def resolveDocument (engine : Engine) (document : Json) : Except TreeError (Outcome Json) := do
  let tree ← Tree.ofJson document
  let outcome := engine.resolveAll tree
  pure ⟨outcome.value.toJson, outcome.report, outcome.log⟩

end Engine

end DesignTokens
