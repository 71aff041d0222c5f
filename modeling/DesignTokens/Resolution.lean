import DesignTokens.Diagnostic.Recorder
import DesignTokens.Evaluation
import DesignTokens.Reference.Guard

/-!
# Resolving values

A value is resolved in one pass. Its references are expanded, and a token that expands to a call
without placeholders is evaluated on the way, while it is still on the chain. If the expanded value is
a call, it is evaluated then. A value that runs into a cycle of references comes back as it is
written; a value that is not a string has nothing to resolve.

`process` does this on a recorder: it tells a cycle by the counter of the collector, which has been
counting since before the value. `resolve` gives the same value beside the trace of all steps.
-/

namespace DesignTokens

/-- What values are resolved against. -/
structure Scope where
  catalog : Catalog
  settings : Settings
  tree : Tree

namespace Scope

section Evaluate

variable {m : Type → Type} [Monad m] [Tracing m]

/-- The text of an expanded token, evaluated if it is a call without placeholders. -/
def evaluateExpanded (scope : Scope) (text : String) : m String :=
  if isCall text && !Reference.occursIn text then
    Expression.evaluateText scope.catalog scope.settings [] text
  else pure text

/-- An expanded value, evaluated if it is a call. -/
def evaluateValue (scope : Scope) : Json → m Json
  | .string text => do
    let text ← Expression.evaluateText scope.catalog scope.settings [] text
    pure (.string text)
  | value => pure value

end Evaluate

/-- The note that a value ran into a cycle. -/
def leftAsWrittenEvent (source : String) : Event :=
  (Event.debug .plainDebug "Value left as written after a reference cycle").note "value" source

/-- A value with its references expanded, on a recorder. -/
def expandOn (scope : Scope) (value : Json) : StateM Recorder Json := fun r =>
  let (value, s) :=
    Reference.Guarded.resolveValue scope.tree scope.evaluateExpanded value (.start [] r)
  (value, s.state)

/-- The value that a token value resolves to, on a recorder. -/
def process (scope : Scope) (value : Json) : StateM Recorder Json :=
  match value with
  | .string source => do
    let before ← get
    let expanded ← scope.expandOn value
    let after ← get
    if before.collector.count .referenceCycle < after.collector.count .referenceCycle then do
      Tracing.step (.noted (leftAsWrittenEvent source))
      pure value
    else scope.evaluateValue expanded
  | value => pure value

/-- `process` on a text; a value that is not a string is written as JSON. -/
def processText (scope : Scope) (text : String) : StateM Recorder String := do
  match ← scope.process (.string text) with
  | .string text => pure text
  | value => pure value.render

/-- A value with its references expanded. -/
def expand (scope : Scope) (value : Json) : Traced Json :=
  Reference.resolveValue scope.tree scope.evaluateExpanded [] value

/-- The value that a token value resolves to, and the steps on the way. -/
def resolve (scope : Scope) (value : Json) : Traced Json :=
  match value with
  | .string source =>
    let expanded := scope.expand value
    if expanded.raises .referenceCycle then
      expanded >>= fun _ => do
        Tracing.step (.noted (leftAsWrittenEvent source))
        pure value
    else expanded >>= scope.evaluateValue
  | value => pure value

end Scope

end DesignTokens
