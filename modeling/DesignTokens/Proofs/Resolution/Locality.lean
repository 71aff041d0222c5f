import DesignTokens.Proofs.Reference.Locality
import DesignTokens.Proofs.Resolution.Process
import DesignTokens.Proofs.Tree.Places

/-!
# Resolution is local

What a value resolves to, and everything that is raised on the way, depends on the paths alone that can
be reached from it: on whether such a path leads to a token, a group, a raw entry or nowhere, and on
the value if it is a token. Two trees that agree there cannot be told apart by resolving the value,
and a token that cannot be reached may be edited freely.

Look-ups that fail are covered, since a path that leads nowhere can be reached like any other.
-/

namespace DesignTokens

open Reference

/-- What a look-up tells of a node: its kind, and the value of a token. -/
inductive Node.Kind where
  | token (value : Json)
  | group
  | raw

/-- The kind of a node. -/
def Node.kind : Node → Node.Kind
  | .token t => .token t.value
  | .group _ => .group
  | .raw _ => .raw

namespace Reference

variable {tree other : Tree} {path : String}

/-- The kind of the node at a path decides about its target. -/
theorem target_eq_of_kind
    (h : (other.node? path).map Node.kind = (tree.node? path).map Node.kind) :
    target other path = target tree path := by
  rw [target, target]
  cases ho : other.node? path with
  | none =>
    cases ht : tree.node? path with
    | none => rfl
    | some node => simp [ho, ht] at h
  | some node =>
    cases ht : tree.node? path with
    | none => simp [ho, ht] at h
    | some node' =>
      have hk : node.kind = node'.kind := by simpa [ho, ht] using h
      cases node <;> cases node' <;> simp_all [Node.kind]

/-- An edit changes the kind of a node only by the value of the token there. -/
theorem kind_mapPlaces {edit : List String → Token → Token}
    (h : ∀ t, tree.token? path = some t → (edit (pathKeys path) t).value = t.value) :
    ((tree.mapPlaces edit).node? path).map Node.kind = (tree.node? path).map Node.kind := by
  rw [Tree.node?_mapPlaces]
  cases hn : tree.node? path with
  | none => rfl
  | some node =>
    cases node with
    | token t =>
      have hv := h t (by simp [Tree.token?, hn, Node.token?])
      simp [Node.mapPlaces, Node.kind, hv]
    | group children => rfl
    | raw value => rfl

end Reference

namespace Scope

variable {catalog : Catalog} {settings : Settings} {tree other : Tree} {text : String}

theorem resolve_eq_of_reaches
    (h : ∀ path, Reaches tree text path → target other path = target tree path) :
    (Scope.mk catalog settings other).resolve (.string text) =
      (Scope.mk catalog settings tree).resolve (.string text) := by
  have expanded : (Scope.mk catalog settings other).expand (.string text) =
      (Scope.mk catalog settings tree).expand (.string text) :=
    -- the hook knows the catalog and the settings, but not the tree
    resolveValue_eq_of_reaches h
  rw [resolve, resolve, expanded]
  rfl

/-- Resolution is local. In trees that have nodes of one kind, and tokens of one value, at every path
that can be reached from a text, the text resolves to the same value with the same steps, and
processing it does the same to every recorder. So an edit of tokens that cannot be reached makes no
difference. -/
theorem resolution_is_local (catalog : Catalog) (settings : Settings) (tree : Tree)
    (text : String) :
    (∀ other : Tree,
      (∀ path, Reaches tree text path →
        (other.node? path).map Node.kind = (tree.node? path).map Node.kind) →
      (Scope.mk catalog settings other).resolve (.string text) =
          (Scope.mk catalog settings tree).resolve (.string text) ∧
        (Scope.mk catalog settings other).process (.string text) =
          (Scope.mk catalog settings tree).process (.string text)) ∧
    (∀ edit : List String → Token → Token,
      (∀ path t, Reaches tree text path → tree.token? path = some t →
        (edit (pathKeys path) t).value = t.value) →
      (Scope.mk catalog settings (tree.mapPlaces edit)).process (.string text) =
        (Scope.mk catalog settings tree).process (.string text)) := by
  constructor
  · intro other h
    have resolved : (Scope.mk catalog settings other).resolve (.string text) =
        (Scope.mk catalog settings tree).resolve (.string text) :=
      resolve_eq_of_reaches fun path hp => target_eq_of_kind (h path hp)
    exact ⟨resolved, by rw [process_eq, process_eq, resolved]⟩
  · intro edit h
    rw [process_eq, process_eq, resolve_eq_of_reaches]
    intro path hp
    exact target_eq_of_kind (kind_mapPlaces fun t ht => h path t hp ht)

section Loop

/-- A tree with a token that refers to itself, and a token beside it. -/
def loopTree : Tree :=
  ⟨[("again", .token (.of (.string (placeholderText "again")))),
    ("spare", .token (.of (.string "red")))]⟩

/-- The tree without the token beside the loop. -/
def bareLoopTree : Tree := ⟨[("again", .token (.of (.string (placeholderText "again"))))]⟩

/-- An edit that gives the token beside the loop another value. -/
def repaint (place : List String) (t : Token) : Token :=
  if place = ["spare"] then { t with value := .string "blue" } else t

theorem eq_of_reaches_loop {path : String}
    (h : Reaches loopTree (placeholderText "again") path) : path = "again" := by
  have only : ∀ {last}, last ∈ find (placeholderText "again") → last = "again" := by
    intro last hl
    rwa [find_placeholderText (by decide), List.mem_singleton] at hl
  obtain ⟨start, hs, hr⟩ := h
  obtain rfl := only (mem_find_iff.2 hs)
  induction hr with
  | refl => rfl
  | tail _ hr ih =>
    have loop : target loopTree "again" = .text (placeholderText "again") := rfl
    rw [ih] at hr
    exact only ((references_iff loop).1 hr)

/-- A value that runs into the loop resolves in the same way without the other token, and whatever
the value of the other token is. -/
theorem resolution_is_local_loop :
    let value : Json := .string (placeholderText "again")
    let before : Scope := ⟨.empty, .builtin, loopTree⟩
    (∀ path, Reaches loopTree (placeholderText "again") path → path = "again") ∧
      (Scope.mk .empty .builtin bareLoopTree).resolve value = before.resolve value ∧
      (Scope.mk .empty .builtin bareLoopTree).process value = before.process value ∧
      (Scope.mk .empty .builtin (loopTree.mapPlaces repaint)).process value =
        before.process value := by
  obtain ⟨trees, edits⟩ :=
    resolution_is_local .empty .builtin loopTree (placeholderText "again")
  have same := trees bareLoopTree fun path hp => by rw [eq_of_reaches_loop hp]; rfl
  refine ⟨fun path hp => eq_of_reaches_loop hp, same.1, same.2, ?_⟩
  apply edits repaint
  intro path t hp _
  rw [eq_of_reaches_loop hp]
  rfl

end Loop

end Scope

end DesignTokens
