import DesignTokens.Engine.Walk

/-!
# Places in a tree

A place is the list of the keys that lead from the root of a tree to a token. A path joins the keys by
dots and can be followed only if none of them is empty or holds a dot; a place tells all tokens apart.

`mapPlaces` edits a tree: it replaces the tokens where they stand, each in view of its place, and
keeps all else. Look-ups lead to the same places as before.
-/

namespace DesignTokens

namespace Node

variable {f : List String → Token → Token}

mutual

/-- The node at a place with every token replaced. -/
def mapPlaces (f : List String → Token → Token) (place : List String) : Node → Node
  | .token t => .token (f place t)
  | .group children => .group (mapPlacesAll f place children)
  | .raw value => .raw value

/-- The entries of the group at a place with every token replaced. -/
def mapPlacesAll (f : List String → Token → Token) (place : List String) :
    List (String × Node) → List (String × Node)
  | [] => []
  | (key, node) :: children =>
    (key, mapPlaces f (place ++ [key]) node) :: mapPlacesAll f place children

end

mutual

/-- The tokens in the node at a place, each with its own place, depth first. -/
def places (place : List String) : Node → List (List String × Token)
  | .token t => [(place, t)]
  | .group children => placesAll place children
  | .raw _ => []

/-- The tokens in the entries of the group at a place, each with its own place, depth first. -/
def placesAll (place : List String) : List (String × Node) → List (List String × Token)
  | [] => []
  | (key, node) :: children => places (place ++ [key]) node ++ placesAll place children

end

theorem get?_mapPlacesAll (place : List String) (children : List (String × Node)) (key : String) :
    KeyedList.get? (mapPlacesAll f place children) key =
      (KeyedList.get? children key).map (mapPlaces f (place ++ [key])) := by
  induction children with
  | nil => rfl
  | cons entry children ih =>
    obtain ⟨k, node⟩ := entry
    rw [mapPlacesAll, KeyedList.get?, KeyedList.get?]
    split
    · rename_i hk
      rw [hk]
      rfl
    · exact ih

theorem descend?_mapPlaces (node : Node) (place keys : List String) :
    (node.mapPlaces f place).descend? keys =
      (node.descend? keys).map (mapPlaces f (place ++ keys)) := by
  induction keys generalizing node place with
  | nil => simp [descend?]
  | cons key keys ih =>
    cases node with
    | group children =>
      simp only [mapPlaces, descend?, get?_mapPlacesAll]
      split
      · rfl
      · cases KeyedList.get? children key with
        | none => rfl
        | some child => simpa using ih child (place ++ [key])
    | _ =>
      simp only [mapPlaces, descend?]
      split <;> rfl

theorem token?_mapPlaces (node : Node) (place : List String) :
    (node.mapPlaces f place).token? = node.token?.map (f place) := by
  cases node <;> rfl

theorem places_subset_placesAll {children : List (String × Node)} {key : String} {node : Node}
    (h : KeyedList.get? children key = some node) (place : List String) :
    places (place ++ [key]) node ⊆ placesAll place children := by
  induction children with
  | nil => simp at h
  | cons entry children ih =>
    obtain ⟨k, n⟩ := entry
    rw [KeyedList.get?] at h
    rw [placesAll]
    split at h
    · rename_i hk
      obtain rfl : n = node := by simpa using h
      subst hk
      exact List.subset_append_left _ _
    · exact List.subset_append_of_subset_right _ (ih h)

/-- A token that a look-up finds stands at the place that the keys lead to. -/
theorem mem_places_of_descend? {node : Node} {keys : List String} {t : Token}
    (h : node.descend? keys = some (.token t)) (place : List String) :
    (place ++ keys, t) ∈ node.places place := by
  induction keys generalizing node place with
  | nil =>
    obtain rfl : node = .token t := by simpa [descend?] using h
    simp [places]
  | cons key keys ih =>
    unfold descend? at h
    split at h
    · simp at h
    · split at h
      · split at h
        · rename_i hc
          have inside := ih h (place ++ [key])
          rw [List.append_assoc] at inside
          exact places_subset_placesAll hc place inside
        · simp at h
      · simp at h

mutual

theorem places_mapPlaces (place : List String) : (node : Node) →
    (node.mapPlaces f place).places place =
      (node.places place).map fun (place, t) => (place, f place t)
  | .token _ => rfl
  | .group children => placesAll_mapPlacesAll place children
  | .raw _ => rfl

theorem placesAll_mapPlacesAll (place : List String) : (children : List (String × Node)) →
    placesAll place (mapPlacesAll f place children) =
      (placesAll place children).map fun (place, t) => (place, f place t)
  | [] => rfl
  | (key, node) :: children => by
    rw [mapPlacesAll, placesAll, placesAll, List.map_append, places_mapPlaces _ node,
      placesAll_mapPlacesAll place children]

end

mutual

/-- An edit that leaves every token as it is changes nothing. -/
theorem mapPlaces_eq_self (place : List String) : (node : Node) →
    (∀ entry ∈ node.places place, f entry.1 entry.2 = entry.2) → node.mapPlaces f place = node
  | .token t, h => congrArg Node.token (h (place, t) (by simp [places]))
  | .group children, h => congrArg Node.group (mapPlacesAll_eq_self place children h)
  | .raw _, _ => rfl

theorem mapPlacesAll_eq_self (place : List String) : (children : List (String × Node)) →
    (∀ entry ∈ placesAll place children, f entry.1 entry.2 = entry.2) →
      mapPlacesAll f place children = children
  | [], _ => rfl
  | (key, node) :: children, h => by
    rw [placesAll] at h
    rw [mapPlacesAll,
      mapPlaces_eq_self _ node fun entry he => h entry (List.mem_append_left _ he),
      mapPlacesAll_eq_self place children fun entry he => h entry (List.mem_append_right _ he)]

end

end Node

namespace Tree

variable {f : List String → Token → Token}

/-- The tree with every token replaced in view of its place. -/
def mapPlaces (f : List String → Token → Token) (t : Tree) : Tree :=
  ⟨Node.mapPlacesAll f [] t.root⟩

/-- The tokens with their places, depth first in the order of the keys. -/
def places (t : Tree) : List (List String × Token) := Node.placesAll [] t.root

/-- The values of all tokens with their places. -/
def values (t : Tree) : List (List String × Json) :=
  t.places.map fun (place, token) => (place, token.value)

theorem node?_mapPlaces (t : Tree) (path : String) :
    (t.mapPlaces f).node? path = (t.node? path).map (Node.mapPlaces f (pathKeys path)) := by
  have h := Node.descend?_mapPlaces (f := f) (.group t.root) [] (pathKeys path)
  rwa [List.nil_append] at h

/-- A path leads to the token that its keys lead to. -/
theorem token?_mapPlaces (t : Tree) (path : String) :
    (t.mapPlaces f).token? path = (t.token? path).map (f (pathKeys path)) := by
  rw [token?, token?, node?_mapPlaces]
  cases t.node? path with
  | none => rfl
  | some node => exact node.token?_mapPlaces (pathKeys path)

theorem mem_places_of_token? {t : Tree} {path : String} {token : Token}
    (h : t.token? path = some token) : (pathKeys path, token) ∈ t.places := by
  obtain ⟨node, hn, ht⟩ := Option.bind_eq_some_iff.1 h
  cases node <;> simp [Node.token?] at ht
  subst ht
  exact Node.mem_places_of_descend? hn []

theorem places_mapPlaces (t : Tree) :
    (t.mapPlaces f).places = t.places.map fun (place, token) => (place, f place token) :=
  Node.placesAll_mapPlacesAll [] t.root

theorem values_mapPlaces (t : Tree) :
    (t.mapPlaces f).values = t.places.map fun (place, token) => (place, (f place token).value) := by
  rw [values, places_mapPlaces, List.map_map]
  rfl

theorem mapPlaces_eq_self {t : Tree}
    (h : ∀ entry ∈ t.places, f entry.1 entry.2 = entry.2) : t.mapPlaces f = t :=
  congrArg Tree.mk (Node.mapPlacesAll_eq_self [] t.root h)

end Tree

end DesignTokens
