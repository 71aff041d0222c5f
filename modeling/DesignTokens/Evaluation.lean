import DesignTokens.Catalog.Basic
import DesignTokens.Diagnostic.Trace

/-!
# Evaluating expressions

A call is evaluated inside out: first the arguments that are calls, from left to right, then the
function of its name. The result of a function is final and is not read as an expression again. A call
that cannot be answered stays as it is written and raises a warning; one that a browser understands
is written with its evaluated arguments instead.

The signatures of the calls around an expression are carried along, and a call whose signature is
among them is refused.

Evaluation runs wherever steps can be taken: beside a trace, or on a state that observes them.
-/

namespace DesignTokens.Expression

/-- The note that a function answered. -/
def answeredEvent (source result : String) : Event :=
  ((Event.debug .plainDebug "Function evaluated").note "call" source).note "result" result

/-- The warning about a call inside a call of the same signature. -/
def reentrantEvent (name signature : String) (depth : Nat) : Event :=
  ((Event.warning .reentrantCall ("Re-entrant call to '" ++ name ++ "'")).note
    "call" signature).note "depth" (toString depth)

/-- The warning about a call of a function that is not in the catalog. -/
def unknownEvent (source name : String) : Event :=
  ((Event.warning .unknownFunction ("Unknown function '" ++ name ++ "'")).note
    "call" source).note "function" name

/-- The warning about a function that does not answer. -/
def failedEvent (source name : String) (error : FunctionError) : Event :=
  ((Event.warning .functionFailed (name ++ " failed: " ++ error.message)).note
    "call" source).note "function" name

/-- The note about a call that is left for the browser. -/
def passthroughEvent (source name : String) : Event :=
  (Event.debug .cssPassthrough ("'" ++ name ++ "' is a CSS function, left for the browser")).note
    "call" source

variable {m : Type → Type} [Monad m] [Tracing m]

/-- A call that was not answered: left for the browser, or as it is written. -/
def unanswered (settings : Settings) (source name : String) (args : List String)
    (reason : Event) : m String :=
  if settings.isCssPassthrough name then do
    Tracing.raise (passthroughEvent source name)
    pure (Call.signature ⟨name, args⟩)
  else do
    Tracing.raise reason
    pure source

/-- Applies the function of a name to evaluated arguments. -/
def apply (catalog : Catalog) (settings : Settings) (source name : String)
    (args : List String) : m String :=
  match catalog.get? name with
  | none => unanswered settings source name args (unknownEvent source name)
  | some body => do
    Tracing.step (.applied name args)
    match body ⟨args⟩ settings with
    | .ok result => do
      Tracing.step (.noted (answeredEvent source result))
      pure result
    | .error error => unanswered settings source name args (failedEvent source name error)

mutual

/-- The text that an expression evaluates to inside the calls of some signatures. -/
def evaluate (catalog : Catalog) (settings : Settings) (enclosing : List String) :
    Expression → m String
  | .literal text => pure text
  | .call source name arguments =>
    let signature := Call.signature ⟨name, arguments.map Expression.source⟩
    if enclosing.contains signature then do
      Tracing.raise (reentrantEvent name signature enclosing.length)
      pure source
    else do
      let args ← evaluateAll catalog settings (enclosing ++ [signature]) arguments
      apply catalog settings source name args

/-- `evaluate` of each expression, from left to right. -/
def evaluateAll (catalog : Catalog) (settings : Settings) (enclosing : List String) :
    List Expression → m (List String)
  | [] => pure []
  | e :: es => do
    let text ← evaluate catalog settings enclosing e
    let texts ← evaluateAll catalog settings enclosing es
    pure (text :: texts)

end

/-- The text that a text evaluates to; one that is not a call stays as it is. -/
def evaluateText (catalog : Catalog) (settings : Settings) (enclosing : List String)
    (text : String) : m String :=
  evaluate catalog settings enclosing (parse text)

end DesignTokens.Expression
