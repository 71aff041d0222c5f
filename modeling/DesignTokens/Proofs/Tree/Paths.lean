import DesignTokens.Proofs.Json.Canonical
import DesignTokens.Proofs.Text.Pieces
import DesignTokens.Proofs.Tree.Walk
import Mathlib.Data.List.Nodup

/-!
# The paths of a tree and what is found by them

A tree lists one path for each token. In a tree whose groups and tokens stand under keys that paths can
hold, the keys of a place can be read off the path that joins them. There the listed paths are exactly
those that lead to a token, and each is listed once.

No path leads through a token or a raw entry, or through a key of metadata, whatever the keys are.
-/

namespace DesignTokens

open Text

/-- A key that a path can hold: it is not empty and has no dot in it. -/
def PathKey (key : String) : Prop := key ≠ "" ∧ '.' ∉ key.toList

section Join

/-- The keys of a place can be read off its path. -/
theorem pathKeys_joinPlace {place : List String} (hn : place ≠ [])
    (h : ∀ key ∈ place, PathKey key) : pathKeys (joinPlace place) = place := by
  cases place with
  | nil => exact absurd rfl hn
  | cons first keys =>
    obtain ⟨full, plain⟩ := h first (by simp)
    have start : first.isEmpty = false := by simpa [String.isEmpty_iff] using full
    have join : joinPlace (first :: keys) = keys.foldl joinPath first := by
      simp [joinPlace, joinPath]
    have parts : ∀ part ∈ keys.map String.toList, '.' ∉ part := by
      intro part hp
      obtain ⟨key, hk, rfl⟩ := List.mem_map.1 hp
      exact (h key (List.mem_cons_of_mem _ hk)).2
    rw [pathKeys, join, toList_foldl_joinPath start, ← List.flatMap_map, splitAt_flatMap plain parts]
    simp

end Join

namespace Node

section Keyed

mutual

/-- Every group in a node is a keyed list. -/
def Keyed : Node → Prop
  | .token _ => True
  | .group children => KeyedList.Sorted children ∧ KeyedAll children
  | .raw _ => True

/-- Every group in the nodes of some entries is a keyed list. -/
def KeyedAll : List (String × Node) → Prop
  | [] => True
  | (_, node) :: children => node.Keyed ∧ KeyedAll children

end

theorem keys_ofEntries (entries : List (String × Json)) :
    KeyedList.keys (ofEntries entries) = KeyedList.keys entries := by
  induction entries with
  | nil => rw [ofEntries]; rfl
  | cons entry entries ih =>
    rw [ofEntries]
    exact congrArg (entry.1 :: ·) ih

theorem sorted_ofEntries {entries : List (String × Json)} (h : KeyedList.Sorted entries) :
    KeyedList.Sorted (ofEntries entries) := by
  have keys := keys_ofEntries entries
  rw [KeyedList.keys, KeyedList.keys] at keys
  rwa [KeyedList.Sorted, keys]

mutual

/-- What a canonical value is read as is a keyed list in every group. -/
theorem keyed_ofJson (key : String) : (value : Json) → value.Canonical → (ofJson key value).Keyed
  | .object entries, h => by
    rw [ofJson]
    split
    · trivial
    · cases Token.ofEntries? entries with
      | some t => trivial
      | none => exact ⟨sorted_ofEntries h.1, keyedAll_ofEntries entries h.2⟩
  | .null, _ => trivial
  | .bool _, _ => trivial
  | .number _, _ => trivial
  | .string _, _ => trivial
  | .array _, _ => trivial

theorem keyedAll_ofEntries : (entries : List (String × Json)) → Json.CanonicalEntries entries →
    KeyedAll (ofEntries entries)
  | [], _ => trivial
  | (key, value) :: entries, h => by
    rw [ofEntries]
    exact ⟨keyed_ofJson key value h.1, keyedAll_ofEntries entries h.2⟩

end

end Keyed

section Followable

mutual

/-- Tokens and groups in a node stand under keys that a path can hold. -/
def Followable : Node → Prop
  | .token _ => True
  | .group children => FollowableAll children
  | .raw _ => True

/-- The tokens and the groups among some entries, and those within them, stand under keys that a path
can hold. The keys of raw entries do not matter. -/
def FollowableAll : List (String × Node) → Prop
  | [] => True
  | (key, node) :: children =>
    ((∃ value, node = .raw value) ∨ PathKey key) ∧ node.Followable ∧ FollowableAll children

end

mutual

/-- The keys of a place lead to the token that stands there. -/
theorem descend?_of_mem_places (place : List String) : (node : Node) → node.Keyed →
    node.Followable → ∀ entry ∈ node.places place, ∃ keys, entry.1 = place ++ keys ∧
      (∀ key ∈ keys, PathKey key) ∧ node.descend? keys = some (.token entry.2)
  | .token t, _, _, entry, he => by
    obtain rfl := List.mem_singleton.1 he
    exact ⟨[], by simp, by simp, rfl⟩
  | .group children, hk, hf, entry, he => by
    obtain ⟨key, keys, child, first, rest, found, led⟩ :=
      get?_of_mem_placesAll place children hk.1 hk.2 hf entry he
    refine ⟨key :: keys, first, rest, ?_⟩
    have full : key.isEmpty = false := by
      simpa [String.isEmpty_iff] using (rest key (by simp)).1
    rw [descend?, if_neg (by simp [full])]
    simp only [found, led]
  | .raw _, _, _, _, he => by simp [places] at he

theorem get?_of_mem_placesAll (place : List String) : (children : List (String × Node)) →
    KeyedList.Sorted children → KeyedAll children → FollowableAll children →
    ∀ entry ∈ placesAll place children, ∃ key keys child, entry.1 = place ++ key :: keys ∧
      (∀ k ∈ key :: keys, PathKey k) ∧ KeyedList.get? children key = some child ∧
        child.descend? keys = some (.token entry.2)
  | [], _, _, _, _, he => by simp [placesAll] at he
  | (key, node) :: children, hs, hk, hf, entry, he => by
    rw [placesAll] at he
    rcases List.mem_append.1 he with he | he
    · obtain ⟨keys, at_, rest, led⟩ :=
        descend?_of_mem_places (place ++ [key]) node hk.1 hf.2.1 entry he
      have named : PathKey key := by
        rcases hf.1 with ⟨value, rfl⟩ | named
        · simp [places] at he
        · exact named
      refine ⟨key, keys, node, by simpa using at_, ?_, by simp [KeyedList.get?], led⟩
      simpa using ⟨named, rest⟩
    · obtain ⟨other, keys, child, at_, rest, found, led⟩ :=
        get?_of_mem_placesAll place children (KeyedList.sorted_cons.1 hs).2 hk.2 hf.2.2 entry he
      refine ⟨other, keys, child, at_, rest, ?_, led⟩
      have behind : key < other :=
        (KeyedList.sorted_cons.1 hs).1 other (KeyedList.mem_keys_of_get? found)
      have different : key ≠ other := by
        rintro rfl
        exact String.lt_irrefl key behind
      rw [KeyedList.get?, if_neg different, found]

end

end Followable

section Distinct

mutual

theorem prefix_of_mem_places (place : List String) : (node : Node) →
    ∀ entry ∈ node.places place, place <+: entry.1
  | .token t, entry, he => by
    obtain rfl := List.mem_singleton.1 he
    exact List.prefix_rfl
  | .group children, entry, he => by
    obtain ⟨key, -, start⟩ := key_of_mem_placesAll place children entry he
    exact (List.prefix_append place [key]).trans start
  | .raw _, _, he => by simp [places] at he

theorem key_of_mem_placesAll (place : List String) : (children : List (String × Node)) →
    ∀ entry ∈ placesAll place children, ∃ key ∈ KeyedList.keys children, place ++ [key] <+: entry.1
  | [], _, he => by simp [placesAll] at he
  | (key, node) :: children, entry, he => by
    rw [placesAll] at he
    rcases List.mem_append.1 he with he | he
    · exact ⟨key, by simp [KeyedList.keys], prefix_of_mem_places _ node entry he⟩
    · obtain ⟨other, mem, start⟩ := key_of_mem_placesAll place children entry he
      exact ⟨other, List.mem_cons_of_mem _ mem, start⟩

end

mutual

/-- No two tokens stand at one place. -/
theorem nodup_places (place : List String) : (node : Node) → node.Keyed →
    ((node.places place).map Prod.fst).Nodup
  | .token _, _ => by simp [places]
  | .group children, h => nodup_placesAll place children h.1 h.2
  | .raw _, _ => by simp [places]

theorem nodup_placesAll (place : List String) : (children : List (String × Node)) →
    KeyedList.Sorted children → KeyedAll children → ((placesAll place children).map Prod.fst).Nodup
  | [], _, _ => by simp [placesAll]
  | (key, node) :: children, hs, hk => by
    obtain ⟨behind, sorted⟩ := KeyedList.sorted_cons.1 hs
    rw [placesAll, List.map_append]
    refine (nodup_places _ node hk.1).append (nodup_placesAll place children sorted hk.2) ?_
    -- the places in the first entry have another key there than those behind it
    intro common hf hr
    obtain ⟨first, mem, rfl⟩ := List.mem_map.1 hf
    obtain ⟨other, mem', same⟩ := List.mem_map.1 hr
    obtain ⟨key', hk', start'⟩ := key_of_mem_placesAll place children other mem'
    have start := prefix_of_mem_places _ node first mem
    rw [same] at start'
    have keys : key = key' := by
      simpa using List.prefix_of_prefix_length_le start start' (by simp)
    exact String.lt_irrefl key (keys ▸ behind key' hk')

end

end Distinct

section Blocked

/-- Keys lead no further from a node that is no group. -/
theorem descend?_of_not_group {node : Node} (h : node.children? = none) (key : String)
    (keys : List String) : node.descend? (key :: keys) = none := by
  cases node with
  | group children => simp [children?] at h
  | _ => simp [descend?]

theorem descend?_append (node : Node) (before after : List String) :
    node.descend? (before ++ after) = (node.descend? before).bind (·.descend? after) := by
  induction before generalizing node with
  | nil => rfl
  | cons key before ih =>
    cases node with
    | group children =>
      rw [List.cons_append, descend?, descend?]
      split
      · rfl
      · cases KeyedList.get? children key with
        | none => rfl
        | some child => exact ih child
    | _ => rw [List.cons_append, descend?_of_not_group rfl, descend?_of_not_group rfl, Option.bind_none]

theorem get?_ofEntries (entries : List (String × Json)) (key : String) :
    KeyedList.get? (ofEntries entries) key = (KeyedList.get? entries key).map (ofJson key) := by
  induction entries with
  | nil => rw [ofEntries]; rfl
  | cons entry entries ih =>
    obtain ⟨k, value⟩ := entry
    rw [ofEntries, KeyedList.get?, KeyedList.get?]
    split
    · rename_i same
      rw [same]
      rfl
    · exact ih

theorem ofJson_of_metadata {key : String} (h : isMetadataKey key = true) (value : Json) :
    ofJson key value = .raw value := by
  cases value <;> simp [ofJson, h]

/-- A group that is read is read from an object. -/
theorem exists_entries_of_ofJson {key : String} {value : Json} {children : List (String × Node)}
    (h : ofJson key value = .group children) : ∃ entries, children = ofEntries entries := by
  cases value with
  | object entries =>
    rw [ofJson] at h
    split at h
    · simp at h
    · split at h
      · simp at h
      · exact ⟨entries, (Node.group.inj h).symm⟩
  | _ => simp [ofJson] at h

/-- Keys of metadata lead to no token. -/
theorem token?_of_metadata {keys : List String} (h : ∃ key ∈ keys, isMetadataKey key = true)
    (entries : List (String × Json)) :
    ((Node.group (ofEntries entries)).descend? keys).bind Node.token? = none := by
  induction keys generalizing entries with
  | nil => simp at h
  | cons key keys ih =>
    rw [descend?]
    split
    · rfl
    · rw [get?_ofEntries]
      cases KeyedList.get? entries key with
      | none => rfl
      | some value =>
        by_cases hm : isMetadataKey key = true
        · simp only [Option.map_some, ofJson_of_metadata hm]
          cases keys with
          | nil => rfl
          | cons next keys =>
            have leaf : (Node.raw value).children? = none := rfl
            simp [descend?_of_not_group leaf]
        · have inside : ∃ key ∈ keys, isMetadataKey key = true := by simpa [hm] using h
          simp only [Option.map_some]
          cases child : ofJson key value with
          | group children =>
            obtain ⟨others, rfl⟩ := exists_entries_of_ofJson child
            exact ih inside others
          | _ =>
            obtain ⟨next, rest, rfl⟩ : ∃ next rest, keys = next :: rest :=
              List.exists_cons_of_ne_nil (by rintro rfl; simp at inside)
            rw [descend?_of_not_group rfl]
            rfl

end Blocked

end Node

namespace Group

mutual

theorem length_nodePaths (path : String) :
    (node : Node) → (nodePaths path node).length = nodeTokenCount node
  | .token _ => rfl
  | .group children => by
    rw [nodePaths, nodeTokenCount]
    exact length_paths path children
  | .raw _ => rfl

theorem length_paths (path : String) :
    (children : List (String × Node)) → (paths path children).length = tokenCount children
  | [] => rfl
  | (key, node) :: children => by
    rw [paths, tokenCount, List.length_append, length_nodePaths _ node, length_paths path children]

end

end Group

/-- A tree lists one path for each token. -/
theorem Tree.length_paths (tree : Tree) : tree.paths.length = tree.tokenCount :=
  Group.length_paths "" tree.root

namespace Tree

variable {tree : Tree} {value : Json} {path : String}

/-- Tokens and groups of a tree stand under keys that a path can hold. -/
def Followable (tree : Tree) : Prop := Node.FollowableAll tree.root

/-- What a canonical value is read as is a keyed list in every group. -/
theorem keyed_of_ofJson (h : value.Canonical) (read : ofJson value = .ok tree) :
    (Node.group tree.root).Keyed := by
  cases value with
  | object entries =>
    obtain rfl := Except.ok.inj read
    exact ⟨Node.sorted_ofEntries h.1, Node.keyedAll_ofEntries entries h.2⟩
  | _ => simp [ofJson] at read

/-- The path of a place leads to the token that stands there, and to no other place. -/
theorem of_mem_places (hk : (Node.group tree.root).Keyed) (hf : tree.Followable)
    {entry : List String × Token} (h : entry ∈ tree.places) :
    pathKeys (joinPlace entry.1) = entry.1 ∧ tree.token? (joinPlace entry.1) = some entry.2 := by
  obtain ⟨key, keys, child, at_, named, found, led⟩ :=
    Node.get?_of_mem_placesAll [] tree.root hk.1 hk.2 hf entry h
  have place : entry.1 = key :: keys := at_
  have read : pathKeys (joinPlace entry.1) = entry.1 := by
    rw [place]
    exact pathKeys_joinPlace (by simp) named
  obtain ⟨keys', at_', -, led'⟩ := Node.descend?_of_mem_places [] (.group tree.root) hk hf entry h
  obtain rfl : keys' = entry.1 := at_'.symm
  refine ⟨read, ?_⟩
  rw [token?, node?, read, led']
  rfl

theorem token?_iff_mem_paths (hk : (Node.group tree.root).Keyed) (hf : tree.Followable) :
    (∃ t, tree.token? path = some t) ↔ path ∈ tree.paths := by
  constructor
  · rintro ⟨t, ht⟩
    exact mem_paths_of_token? ht
  · intro hp
    rw [paths_eq] at hp
    obtain ⟨entry, he, rfl⟩ := List.mem_map.1 hp
    exact ⟨entry.2, (of_mem_places hk hf he).2⟩

theorem nodup_paths (hk : (Node.group tree.root).Keyed) (hf : tree.Followable) :
    tree.paths.Nodup := by
  have joined : tree.paths = (tree.places.map Prod.fst).map joinPlace := by
    rw [paths_eq, List.map_map]
    rfl
  rw [joined]
  refine (Node.nodup_placesAll [] tree.root hk.1 hk.2).map_on ?_
  intro place hp place' hp' same
  obtain ⟨entry, he, rfl⟩ := List.mem_map.1 hp
  obtain ⟨entry', he', rfl⟩ := List.mem_map.1 hp'
  rw [← (of_mem_places hk hf he).1, same, (of_mem_places hk hf he').1]

/-- A path whose keys lead to a token or a raw entry and go on behind it leads to no token. -/
theorem token?_of_not_group {before after : List String} {found : Node} {key : String}
    (keys : pathKeys path = before ++ key :: after)
    (h : (Node.group tree.root).descend? before = some found) (hf : found.children? = none) :
    tree.token? path = none := by
  rw [token?, node?, keys, Node.descend?_append, h, Option.bind_some, Node.descend?_of_not_group hf]
  rfl

theorem token?_of_raw {before after : List String} (keys : pathKeys path = before ++ after)
    (h : (Node.group tree.root).descend? before = some (.raw value)) : tree.token? path = none := by
  cases after with
  | nil =>
    rw [token?, node?, keys, List.append_nil, h]
    rfl
  | cons key after => exact token?_of_not_group keys h rfl

theorem token?_of_metadata (read : ofJson value = .ok tree)
    (h : ∃ key ∈ pathKeys path, isMetadataKey key = true) : tree.token? path = none := by
  cases value with
  | object entries =>
    obtain rfl := Except.ok.inj read
    exact Node.token?_of_metadata h entries
  | _ => simp [ofJson] at read

/-- The paths of a tree and look-ups go together. If tokens and groups stand under keys that are not
empty and hold no dot, a path leads to a token exactly if it is listed, and none is listed twice. With
any keys, no path leads to a token through a token, a raw entry or a key of metadata; and as many paths
are listed as there are tokens. -/
theorem paths_agree_with_lookup (h : value.Canonical) (read : ofJson value = .ok tree) :
    (tree.Followable →
        (∀ path, (∃ t, tree.token? path = some t) ↔ path ∈ tree.paths) ∧ tree.paths.Nodup) ∧
      (∀ path before key after t, pathKeys path = before ++ key :: after →
        (Node.group tree.root).descend? before = some (.token t) → tree.token? path = none) ∧
      (∀ path before after value, pathKeys path = before ++ after →
        (Node.group tree.root).descend? before = some (.raw value) → tree.token? path = none) ∧
      (∀ path, (∃ key ∈ pathKeys path, isMetadataKey key = true) → tree.token? path = none) ∧
      ∀ tree : Tree, tree.paths.length = tree.tokenCount := by
  have keyed := keyed_of_ofJson h read
  refine ⟨fun hf => ⟨fun path => token?_iff_mem_paths keyed hf, nodup_paths keyed hf⟩, ?_, ?_, ?_,
    length_paths⟩
  · intro path before key after t keys found
    exact token?_of_not_group keys found rfl
  · intro path before after value keys found
    exact token?_of_raw keys found
  · intro path metadata
    exact token?_of_metadata read metadata

/-- Two tokens in a group, beside metadata with a token's shape and a raw entry under a key that no path
can hold. -/
def brand : KeyedList Json :=
  [ ("$meta", .object [("value", .string "draft")]),
    ("color", .object
      [ ("$description", .string "Palette"),
        ("accent", .object [("$value", .string "\x7bcolor.base\x7d")]),
        ("base", .object [("value", .string "#6366f1")]) ]),
    ("notes.old", .string "free text") ]

theorem paths_agree_with_lookup_brand :
    (Json.object brand).Canonical ∧ ofJson (.object brand) = .ok ⟨Node.ofEntries brand⟩ ∧
      (Tree.mk (Node.ofEntries brand)).Followable ∧
      (Tree.mk (Node.ofEntries brand)).paths = ["color.accent", "color.base"] ∧
      (∀ path, (∃ t, (Tree.mk (Node.ofEntries brand)).token? path = some t) ↔
        path ∈ (Tree.mk (Node.ofEntries brand)).paths) ∧
      (Tree.mk (Node.ofEntries brand)).token? "color.base.value" = none ∧
      (Tree.mk (Node.ofEntries brand)).token? "$meta" = none := by
  have canonical : (Json.object brand).Canonical := by decide
  have read : ofJson (.object brand) = .ok ⟨Node.ofEntries brand⟩ := rfl
  have followable : (Tree.mk (Node.ofEntries brand)).Followable := by
    refine ⟨.inl ⟨_, rfl⟩, trivial, .inr ⟨by decide, by decide⟩, ?_, .inl ⟨_, rfl⟩, trivial, trivial⟩
    exact ⟨.inl ⟨_, rfl⟩, trivial, .inr ⟨by decide, by decide⟩, trivial,
      .inr ⟨by decide, by decide⟩, trivial, trivial⟩
  obtain ⟨agree, beyond, -, metadata, -⟩ := paths_agree_with_lookup canonical read
  refine ⟨canonical, read, followable, by decide, (agree followable).1, ?_, ?_⟩
  · exact beyond "color.base.value" ["color", "base"] "value" [] _ (by decide) rfl
  · exact metadata "$meta" ⟨"$meta", by decide, by decide⟩

/-- Keys with dots in them make two places of one path. -/
example :
    let token : Node := .token (.of (.string "red"))
    (Tree.mk [("a", .group [("b", token)]), ("a.b", token)]).paths = ["a.b", "a.b"] := by
  decide

end Tree

end DesignTokens
