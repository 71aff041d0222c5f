import DesignTokens.Engine.Basic
import DesignTokens.Proofs.Resolution.Process
import DesignTokens.Proofs.Tree.MapTokens

/-!
# Values do not depend on diagnostics

What a value resolves to is the same on every recorder: whatever the collector has kept, counted or
dropped before, and with any log or none. So a token gets in a walk of the whole tree the value that
it gets alone, wherever the walk comes from.
-/

namespace DesignTokens

@[simp] theorem Token.value_withResolved (t : Token) (value : Json) :
    (t.withResolved value).value = value := by
  rw [withResolved]
  split
  · rename_i h
    exact h.symm
  · rfl

theorem Token.withResolved_self {t : Token} {value : Json} (h : value = t.value) :
    t.withResolved value = t := if_pos h

/-- A text that changes is kept as the original, unless there is one. -/
theorem Token.withResolved_of_text {t : Token} {value : Json} {text : String}
    (hv : t.value = .string text) (hn : value ≠ t.value) :
    t.withResolved value =
      { t with value := value, original := some (t.original.getD text) } := by
  rw [withResolved, if_neg hn, text?, hv]
  cases t.original <;> rfl

theorem Walker.value_resolveToken (scope : Scope) (path : String) (t : Token) (w : Walker) :
    (Walker.resolveToken scope path t w).1 = t.withResolved (scope.resolve t.value).value :=
  congrArg t.withResolved (scope.value_process t.value _)

theorem Tree.value_walk (scope : Scope) (tree : Tree) (w : Walker) :
    (tree.walk scope w).1 =
      tree.mapTokens fun t => t.withResolved (scope.resolve t.value).value :=
  congrArg Tree.mk (Node.value_walkAll (Walker.value_resolveToken scope) "" tree.root w)

namespace Engine

theorem value_resolveOne (engine : Engine) (tree : Tree) (value : Json) :
    (engine.resolveOne tree value).value = ((engine.scope tree).resolve value).value :=
  Scope.value_process _ value _

theorem value_resolveAll (engine : Engine) (tree : Tree) :
    (engine.resolveAll tree).value =
      tree.mapTokens fun t => t.withResolved (engine.resolveOne tree t.value).value := by
  simp only [value_resolveOne]
  exact Tree.value_walk _ tree _

/-- In a resolved tree, a path leads to what the value of its token resolves to. -/
theorem value_token?_resolveAll (engine : Engine) (tree : Tree) (path : String) :
    ((engine.resolveAll tree).value.token? path).map Token.value =
      (tree.token? path).map fun t => ((engine.scope tree).resolve t.value).value := by
  rw [value_resolveAll, Tree.token?_mapTokens, Option.map_map]
  congr 1
  funext t
  rw [Function.comp_apply, Token.value_withResolved, value_resolveOne]

/-- Diagnostics have no influence on values. Two recorders give one value, and a walk of a tree gives
every token what resolving its value alone gives, whatever was recorded before: by its place, by its
path, and in the order of the tokens. -/
theorem values_independent_of_diagnostics (engine : Engine) (tree : Tree) :
    (∀ (scope : Scope) (value : Json) (r r' : Recorder),
        (scope.process value r).1 = (scope.process value r').1) ∧
      (∀ w : Walker, (tree.walk (engine.scope tree) w).1 = (engine.resolveAll tree).value) ∧
      (engine.resolveAll tree).value =
        tree.mapTokens (fun t => t.withResolved (engine.resolveOne tree t.value).value) ∧
      (∀ path, ((engine.resolveAll tree).value.token? path).map Token.value =
        (tree.token? path).map fun t => (engine.resolveOne tree t.value).value) ∧
      (engine.resolveAll tree).value.tokens.map Token.value =
        tree.tokens.map fun t => (engine.resolveOne tree t.value).value := by
  refine ⟨?_, ?_, engine.value_resolveAll tree, ?_, ?_⟩
  · intro scope value r r'
    rw [scope.value_process, scope.value_process]
  · intro w
    rw [value_resolveAll, Tree.value_walk]
    simp only [value_resolveOne]
  · intro path
    simp only [value_token?_resolveAll, value_resolveOne]
  · rw [value_resolveAll, Tree.tokens_mapTokens, List.map_map]
    congr 1
    funext t
    exact t.value_withResolved _

end Engine

end DesignTokens
