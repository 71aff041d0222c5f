import DesignTokens.Engine.Report
import DesignTokens.Resolution

/-!
# Resolving trees

Every token of a tree gets its resolved value, and all else in the tree stays. Each token is resolved
against the tree as it was given, so the order of the tokens does not matter. A token whose value
changes keeps the text it was written with as its original, unless it already has one.

All tokens share one recorder. A token counts as unresolved when the counter of warnings goes up while
it is resolved.
-/

namespace DesignTokens

namespace Token

/-- The token with its resolved value. -/
def withResolved (t : Token) (value : Json) : Token :=
  if value = t.value then t else { t with value := value, original := t.original <|> t.text? }

end Token

/-- The state of a walk. -/
structure Walker where
  recorder : Recorder
  stats : ResolutionStats

namespace Walker

/-- The state in which a walk begins, with a log of a level or none. -/
def start (level : Option Level) : Walker := ⟨.start level, ⟨0, 0, 0⟩⟩

/-- The token at a path with its resolved value. -/
def resolveToken (scope : Scope) (path : String) (t : Token) : StateM Walker Token := fun w =>
  let (value, recorder) := scope.process t.value (w.recorder.observe (.entered path))
  let recorder := recorder.observe .left
  let changed := value ≠ t.value
  let warned := w.recorder.collector.warningCount < recorder.collector.warningCount
  let stats : ResolutionStats :=
    { visited := w.stats.visited + 1
      changed := w.stats.changed + if changed then 1 else 0
      unresolved := w.stats.unresolved + if warned then 1 else 0 }
  (t.withResolved value, ⟨recorder, stats⟩)

end Walker

namespace Node

section Walk

variable {m : Type → Type} [Monad m]

mutual

/-- The node at a path with every token replaced by what a resolver makes of it. -/
def walk (resolve : (path : String) → Token → m Token) (path : String) : Node → m Node
  | .token t => do
    let t ← resolve path t
    pure (.token t)
  | .group children => do
    let children ← walkAll resolve path children
    pure (.group children)
  | .raw value => pure (.raw value)

/-- `walk` of the entries of the group at a path, in the order of their keys. -/
def walkAll (resolve : (path : String) → Token → m Token) (path : String) :
    List (String × Node) → m (List (String × Node))
  | [] => pure []
  | (key, node) :: children => do
    let node ← walk resolve (joinPath path key) node
    let children ← walkAll resolve path children
    pure ((key, node) :: children)

end

end Walk

mutual

/-- The tokens in a node, depth first. -/
def tokens : Node → List Token
  | .token t => [t]
  | .group children => tokensOfAll children
  | .raw _ => []

/-- The tokens in the entries of a group, depth first. -/
def tokensOfAll : List (String × Node) → List Token
  | [] => []
  | (_, node) :: children => tokens node ++ tokensOfAll children

end

end Node

namespace Tree

/-- The tree with the value of every token resolved. -/
def walk (scope : Scope) (t : Tree) : StateM Walker Tree := do
  let root ← Node.walkAll (Walker.resolveToken scope) "" t.root
  pure ⟨root⟩

/-- The tokens, depth first in the order of the keys. -/
def tokens (t : Tree) : List Token := Node.tokensOfAll t.root

end Tree

end DesignTokens
