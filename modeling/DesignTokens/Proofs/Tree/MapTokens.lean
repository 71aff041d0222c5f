import DesignTokens.Proofs.Tree.Places

/-!
# Trees token by token

`mapTokens` replaces every token of a tree where it stands, by what becomes of the token itself, and
keeps all else: the groups, their keys and the raw entries. A walk whose results do not depend on the
state it passes on is such a replacement.
-/

namespace DesignTokens

namespace Node

variable {f : Token → Token}

mutual

/-- The node with every token replaced. -/
def mapTokens (f : Token → Token) : Node → Node
  | .token t => .token (f t)
  | .group children => .group (mapAll f children)
  | .raw value => .raw value

/-- The entries of a group with every token replaced. -/
def mapAll (f : Token → Token) : List (String × Node) → List (String × Node)
  | [] => []
  | (key, node) :: children => (key, mapTokens f node) :: mapAll f children

end

mutual

/-- Replacing tokens is an edit that does not look at places. -/
theorem mapTokens_eq (place : List String) : (node : Node) →
    node.mapTokens f = node.mapPlaces (fun _ => f) place
  | .token _ => rfl
  | .group children => congrArg Node.group (mapAll_eq place children)
  | .raw _ => rfl

theorem mapAll_eq (place : List String) : (children : List (String × Node)) →
    mapAll f children = mapPlacesAll (fun _ => f) place children
  | [] => rfl
  | (key, node) :: children => by
    rw [mapAll, mapPlacesAll, mapTokens_eq (place ++ [key]) node, mapAll_eq place children]

end

mutual

theorem tokens_mapTokens : (node : Node) → (node.mapTokens f).tokens = node.tokens.map f
  | .token _ => rfl
  | .group children => by
    rw [mapTokens, tokens, tokens]
    exact tokensOfAll_mapAll children
  | .raw _ => rfl

theorem tokensOfAll_mapAll :
    (children : List (String × Node)) →
      tokensOfAll (mapAll f children) = (tokensOfAll children).map f
  | [] => rfl
  | (key, node) :: children => by
    rw [mapAll, tokensOfAll, tokensOfAll, List.map_append, tokens_mapTokens node,
      tokensOfAll_mapAll children]

end

section Walk

variable {σ : Type} {resolve : (path : String) → Token → StateM σ Token}

mutual

/-- If what a token becomes does not depend on the state, nothing in a walk does. -/
theorem value_walk (h : ∀ path t s, (resolve path t s).1 = f t) (path : String) :
    (node : Node) → ∀ s, (walk resolve path node s).1 = node.mapTokens f
  | .token t, s => congrArg Node.token (h path t s)
  | .group children, s => congrArg Node.group (value_walkAll h path children s)
  | .raw _, _ => rfl

theorem value_walkAll (h : ∀ path t s, (resolve path t s).1 = f t) (path : String) :
    (children : List (String × Node)) → ∀ s, (walkAll resolve path children s).1 = mapAll f children
  | [], _ => rfl
  | (key, node) :: children, s => by
    rw [walkAll, mapAll, Observer.bind_apply, Observer.bind_apply, value_walk h _ node s,
      value_walkAll h path children _]
    rfl

end

end Walk

end Node

namespace Tree

/-- The tree with every token replaced. -/
def mapTokens (f : Token → Token) (t : Tree) : Tree := ⟨Node.mapAll f t.root⟩

variable {f : Token → Token}

theorem mapTokens_eq (t : Tree) : t.mapTokens f = t.mapPlaces fun _ => f :=
  congrArg Tree.mk (Node.mapAll_eq [] t.root)

/-- The paths of a tree lead to the replaced tokens. -/
theorem token?_mapTokens (t : Tree) (path : String) :
    (t.mapTokens f).token? path = (t.token? path).map f := by
  rw [mapTokens_eq, token?_mapPlaces]

theorem tokens_mapTokens (t : Tree) : (t.mapTokens f).tokens = t.tokens.map f :=
  Node.tokensOfAll_mapAll t.root

end Tree

end DesignTokens
