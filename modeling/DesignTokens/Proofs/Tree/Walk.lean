import DesignTokens.Proofs.Tree.MapTokens

/-!
# Walks over a tree

A walk comes to the tokens of a tree one after another, depth first in the order of the keys, and to
each with the path that joins the keys of its place. What state it ends in is told by these alone.

`Node.Tokenwise` says of two nodes that they are the same but for their tokens, which are related.
-/

namespace DesignTokens

/-- The path that joins the keys of a place. -/
def joinPlace (place : List String) : String := place.foldl joinPath ""

theorem joinPlace_append (place : List String) (key : String) :
    joinPlace (place ++ [key]) = joinPath (joinPlace place) key := by
  rw [joinPlace, List.foldl_append]
  rfl

namespace Node

section Paths

mutual

theorem nodePaths_eq (place : List String) : (node : Node) →
    Group.nodePaths (joinPlace place) node = (node.places place).map fun entry => joinPlace entry.1
  | .token _ => rfl
  | .group children => paths_eq place children
  | .raw _ => rfl

theorem paths_eq (place : List String) : (children : List (String × Node)) →
    Group.paths (joinPlace place) children =
      (placesAll place children).map fun entry => joinPlace entry.1
  | [] => rfl
  | (key, node) :: children => by
    rw [Group.paths, placesAll, List.map_append, ← joinPlace_append, nodePaths_eq _ node,
      paths_eq place children]

end

mutual

theorem tokens_eq (place : List String) : (node : Node) →
    node.tokens = (node.places place).map Prod.snd
  | .token _ => rfl
  | .group children => tokensOfAll_eq place children
  | .raw _ => rfl

theorem tokensOfAll_eq (place : List String) : (children : List (String × Node)) →
    tokensOfAll children = (placesAll place children).map Prod.snd
  | [] => rfl
  | (key, node) :: children => by
    rw [tokensOfAll, placesAll, List.map_append, tokens_eq _ node, tokensOfAll_eq place children]

end

end Paths

section State

variable {σ : Type} (resolve : (path : String) → Token → StateM σ Token)

mutual

/-- A walk passes its state on from token to token. -/
theorem state_walk (place : List String) : (node : Node) → ∀ s,
    (walk resolve (joinPlace place) node s).2 =
      (node.places place).foldl (fun s (place, t) => (resolve (joinPlace place) t s).2) s
  | .token _, _ => rfl
  | .group children, s => state_walkAll place children s
  | .raw _, _ => rfl

theorem state_walkAll (place : List String) : (children : List (String × Node)) → ∀ s,
    (walkAll resolve (joinPlace place) children s).2 =
      (placesAll place children).foldl (fun s (place, t) => (resolve (joinPlace place) t s).2) s
  | [], _ => rfl
  | (key, node) :: children, s => by
    rw [walkAll, placesAll, List.foldl_append, Observer.bind_apply, Observer.bind_apply,
      ← joinPlace_append, state_walk _ node s, state_walkAll place children]
    rfl

end

end State

section Tokenwise

variable {R : Token → Token → Prop} {f : Token → Token}

mutual

/-- One node is like another: their tokens are related, and all else is equal, at every depth. -/
def Tokenwise (R : Token → Token → Prop) : Node → Node → Prop
  | .token t, .token u => R t u
  | .group children, .group others => TokenwiseAll R children others
  | .raw value, .raw other => other = value
  | _, _ => False

/-- The entries of one group are like those of another, under the same keys. -/
def TokenwiseAll (R : Token → Token → Prop) :
    List (String × Node) → List (String × Node) → Prop
  | [], [] => True
  | (key, node) :: children, (key', node') :: others =>
    key' = key ∧ Tokenwise R node node' ∧ TokenwiseAll R children others
  | _, _ => False

end

mutual

theorem tokenwise_self_mapTokens (h : ∀ t, R t (f t)) : (node : Node) →
    node.Tokenwise R (node.mapTokens f)
  | .token t => h t
  | .group children => tokenwiseAll_mapAll h children
  | .raw _ => rfl

theorem tokenwiseAll_mapAll (h : ∀ t, R t (f t)) : (children : List (String × Node)) →
    TokenwiseAll R children (mapAll f children)
  | [] => trivial
  | (_, node) :: children =>
    ⟨rfl, tokenwise_self_mapTokens h node, tokenwiseAll_mapAll h children⟩

end

end Tokenwise

end Node

namespace Tree

theorem paths_eq (tree : Tree) : tree.paths = tree.places.map fun entry => joinPlace entry.1 :=
  Node.paths_eq [] tree.root

theorem tokens_eq (tree : Tree) : tree.tokens = tree.places.map Prod.snd :=
  Node.tokensOfAll_eq [] tree.root

end Tree

end DesignTokens
