import DesignTokens.Tree.Basic

/-!
# Every token that can be found is listed

A path that leads to a token is one of the paths of the tree. Following references through a tree
therefore meets only finitely many paths, which is why expansion ends.
-/

namespace DesignTokens

open Text

theorem splitAt_eq {c : Char} {s : List Char} :
    ∃ first rest, splitAt c s = first :: rest ∧ s = first ++ rest.flatMap (c :: ·) := by
  induction s with
  | nil => exact ⟨[], [], rfl, rfl⟩
  | cons d s ih =>
    obtain ⟨first, rest, hs, he⟩ := ih
    unfold splitAt
    split
    · rename_i hd
      subst hd
      exact ⟨[], first :: rest, by rw [hs], by simp [← he]⟩
    · rw [hs]
      exact ⟨d :: first, rest, rfl, by simp [← he]⟩

theorem toList_foldl_joinPath {path : String} (h : path.isEmpty = false) (keys : List String) :
    (keys.foldl joinPath path).toList = path.toList ++ keys.flatMap fun k => '.' :: k.toList := by
  induction keys generalizing path with
  | nil => simp
  | cons key keys ih =>
    have hj : joinPath path key = path ++ "." ++ key := by simp [joinPath, h]
    have hn : (joinPath path key).isEmpty = false := by
      rw [hj]
      simp only [Bool.eq_false_iff, ne_eq, String.isEmpty_iff] at h ⊢
      intro he
      have := congrArg String.toList he
      simp at this
    rw [List.foldl_cons, ih hn, hj]
    simp

/-- The keys of a path join to the path again, unless the first one is empty. -/
theorem foldl_joinPath_pathKeys {path : String} (h : ∀ k ∈ pathKeys path, k.isEmpty = false) :
    (pathKeys path).foldl joinPath "" = path := by
  obtain ⟨first, rest, hs, he⟩ := splitAt_eq (c := '.') (s := path.toList)
  have hf : (String.ofList first).isEmpty = false := h _ (by simp [pathKeys, hs])
  have h0 : joinPath "" (String.ofList first) = String.ofList first := by simp [joinPath]
  apply String.toList_injective
  rw [pathKeys, hs, List.map_cons, List.foldl_cons, h0, toList_foldl_joinPath hf, he]
  simp [List.flatMap_map]

namespace Node

theorem isEmpty_of_descend? {node found : Node} {keys : List String}
    (h : node.descend? keys = some found) : ∀ k ∈ keys, k.isEmpty = false := by
  induction keys generalizing node with
  | nil => simp
  | cons key keys ih =>
    unfold descend? at h
    split at h
    · simp at h
    · rename_i hk
      split at h
      · split at h
        · intro k hm
          rcases List.mem_cons.1 hm with rfl | hm
          · simpa using hk
          · exact ih h k hm
        · simp at h
      · simp at h

end Node

namespace Group

theorem nodePaths_subset_paths {children : List (String × Node)} {key : String} {node : Node}
    (h : KeyedList.get? children key = some node) (path : String) :
    nodePaths (joinPath path key) node ⊆ paths path children := by
  induction children with
  | nil => simp [KeyedList.get?] at h
  | cons entry children ih =>
    obtain ⟨k, n⟩ := entry
    unfold KeyedList.get? at h
    unfold paths
    split at h
    · rename_i hk
      obtain rfl : n = node := by simpa using h
      subst hk
      exact List.subset_append_left _ _
    · exact List.subset_append_of_subset_right _ (ih h)

theorem mem_nodePaths_of_descend? {node : Node} {keys : List String} {t : Token}
    (h : node.descend? keys = some (.token t)) (path : String) :
    keys.foldl joinPath path ∈ nodePaths path node := by
  induction keys generalizing node path with
  | nil =>
    obtain rfl : node = .token t := by simpa [Node.descend?] using h
    simp [nodePaths]
  | cons key keys ih =>
    unfold Node.descend? at h
    split at h
    · simp at h
    · split at h
      · split at h
        · rename_i hc
          unfold nodePaths
          exact nodePaths_subset_paths hc path (ih h (joinPath path key))
        · simp at h
      · simp at h

end Group

/-- A path that leads to a token is one of the paths of the tree. -/
theorem Tree.mem_paths_of_token? {tree : Tree} {path : String} {t : Token}
    (h : tree.token? path = some t) : path ∈ tree.paths := by
  obtain ⟨node, hn, ht⟩ := Option.bind_eq_some_iff.1 h
  cases node <;> simp [Node.token?] at ht
  subst ht
  have hm := Group.mem_nodePaths_of_descend? hn ""
  rw [foldl_joinPath_pathKeys (Node.isEmpty_of_descend? hn)] at hm
  simpa [Group.nodePaths, Tree.paths] using hm

end DesignTokens
