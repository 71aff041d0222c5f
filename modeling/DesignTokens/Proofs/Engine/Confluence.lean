import DesignTokens.Proofs.Engine.Independence
import DesignTokens.Proofs.Resolution.Locality
import DesignTokens.Proofs.Resolution.Settled

/-!
# Resolution is confluent

Some tokens of a tree may be resolved ahead of the others: they get their resolved values first, and
then the tree is resolved. If the texts of these tokens settle, this gives every token of the tree the
value that resolving the tree at once gives it, the tokens on cycles included. If the texts of all
tokens settle, a resolved tree is not changed by resolving it again.
-/

namespace DesignTokens

open Reference

namespace Engine

/-- The tree in which the chosen tokens have their resolved values already. -/
def settle (engine : Engine) (chosen : List String → Bool) (tree : Tree) : Tree :=
  tree.mapPlaces fun place t =>
    if chosen place then { t with value := (engine.resolveOne tree t.value).value } else t

variable (engine : Engine) {tree : Tree} {chosen : List String → Bool}

/-- A tree leads where it did when tokens with texts that settle get their values ahead. -/
theorem settled_settle
    (h : ∀ place t, (place, t) ∈ tree.places → chosen place = true →
      ∃ source result, t.value = .string source ∧ (engine.scope tree).Settles source result) :
    (engine.scope tree).Settled (engine.settle chosen tree) := by
  intro path
  cases ht : tree.token? path with
  | none =>
    left
    apply target_eq_of_kind
    apply kind_mapPlaces
    intro t htoken
    simp [ht] at htoken
  | some t =>
    cases hc : chosen (pathKeys path) with
    | false =>
      left
      apply target_eq_of_kind
      apply kind_mapPlaces
      intro _ _
      simp [hc]
    | true =>
      right
      obtain ⟨source, result, hv, settles⟩ := h _ t (Tree.mem_places_of_token? ht) hc
      refine ⟨source, result, textAt_iff.1 ⟨t, ht, hv⟩, settles, ?_⟩
      have value : (engine.resolveOne tree t.value).value = .string result := by
        rw [value_resolveOne, hv, settles.resolved]
      rw [← textAt_iff]
      refine ⟨{ t with value := .string result }, ?_, rfl⟩
      rw [settle, Tree.token?_mapPlaces, ht, Option.map_some, hc, if_pos rfl, value]

/-- The values of a resolved tree are what the values of its tokens resolve to, place by place. -/
theorem values_resolveAll (tree : Tree) :
    (engine.resolveAll tree).value.values =
      tree.places.map fun (place, t) => (place, ((engine.scope tree).resolve t.value).value) := by
  rw [value_resolveAll, Tree.mapTokens_eq, Tree.values_mapPlaces]
  simp only [Token.value_withResolved, value_resolveOne]

/-- A value whose text settles, if it has one, resolves to a value that resolves to itself. -/
theorem resolve_resolved {value : Json} {other : Tree}
    (h : ∀ source, value = .string source → ∃ result, (engine.scope tree).Settles source result) :
    ((engine.scope other).resolve ((engine.scope tree).resolve value).value).value =
      ((engine.scope tree).resolve value).value := by
  cases hs : value.text? with
  | none =>
    rw [Scope.resolve_of_typed _ hs, Traced.value_pure, Scope.resolve_of_typed _ hs,
      Traced.value_pure]
  | some source =>
    have hv : value = .string source := Json.eq_string_of_text? hs
    obtain ⟨result, settles⟩ := h source hv
    rw [hv, settles.resolved, settles.literal.value_resolve]

/-- Resolution is confluent, and idempotent on literals. Let some tokens of a tree have texts that
settle. If they are given their resolved values first, resolving the tree gives every token the same
value as before, at every place. If the texts of all tokens of the tree settle, resolving the resolved
tree again leaves all of it as it is. -/
theorem resolution_confluent (engine : Engine) (tree : Tree) :
    (∀ chosen : List String → Bool,
      (∀ place t, (place, t) ∈ tree.places → chosen place = true →
        ∃ source result, t.value = .string source ∧ (engine.scope tree).Settles source result) →
      (engine.resolveAll (engine.settle chosen tree)).value.values =
        (engine.resolveAll tree).value.values) ∧
    ((∀ place t, (place, t) ∈ tree.places → ∀ source, t.value = .string source →
        ∃ result, (engine.scope tree).Settles source result) →
      (engine.resolveAll (engine.resolveAll tree).value).value =
        (engine.resolveAll tree).value) := by
  constructor
  · intro chosen h
    have settled := engine.settled_settle h
    rw [values_resolveAll, values_resolveAll, settle, Tree.places_mapPlaces, List.map_map]
    apply List.map_congr_left
    rintro ⟨place, t⟩ hm
    refine Prod.ext rfl ?_
    cases hc : chosen place with
    | false =>
      simp only [Function.comp_apply, hc, Bool.false_eq_true, if_false]
      exact settled.value_resolve t.value
    | true =>
      obtain ⟨source, result, hv, settles⟩ := h place t hm hc
      have value : ((engine.scope tree).resolve t.value).value = .string result := by
        rw [hv, settles.resolved]
      simp only [Function.comp_apply, hc, if_true, value_resolveOne, value]
      exact settles.literal.value_resolve
  · intro h
    rw [value_resolveAll, Tree.mapTokens_eq]
    apply Tree.mapPlaces_eq_self
    intro entry hm
    apply Token.withResolved_self
    rw [value_resolveAll, Tree.mapTokens_eq, Tree.places_mapPlaces] at hm
    obtain ⟨⟨place, t⟩, ht, rfl⟩ := List.mem_map.1 hm
    rw [Token.value_withResolved, value_resolveOne, value_resolveOne]
    exact engine.resolve_resolved (h place t ht)

/-- In the palette, the alias may be resolved ahead of the call that refers to it, though the call
does not settle. In the tree of an alias and its base all texts settle. -/
theorem resolution_confluent_palette :
    let engine : Engine := ⟨Scope.palette.catalog, Scope.palette.settings⟩
    let tree := Scope.palette.tree
    let alone := fun place : List String => place == ["accent"]
    (engine.scope tree).Settles (placeholderText "base") "red" ∧
      (engine.resolveAll (engine.settle alone tree)).value.values =
        (engine.resolveAll tree).value.values ∧
      (engine.scope aliasTree).Settles (placeholderText "base") "red" ∧
      (engine.scope aliasTree).Settles "red" "red" ∧
      (engine.resolveAll (engine.resolveAll aliasTree).value).value =
        (engine.resolveAll aliasTree).value := by
  intro engine tree alone
  have ahead : (engine.scope tree).Settles (placeholderText "base") "red" :=
    Scope.literal_red.settles_placeholderText (by decide) Scope.target_palette_base
  have accent : (engine.scope aliasTree).Settles (placeholderText "base") "red" :=
    Scope.literal_red.settles_placeholderText (by decide) target_base
  have base : (engine.scope aliasTree).Settles "red" "red" := Scope.literal_red.settles
  refine ⟨ahead, ?_, accent, base, ?_⟩
  · apply (engine.resolution_confluent tree).1 alone
    intro place t hm hc
    have places : tree.places = [(["accent"], .of (.string (placeholderText "base"))),
        (["base"], .of (.string "red")), (["tone"], .of (.string Scope.toneText))] := rfl
    obtain rfl : place = ["accent"] := by simpa [alone] using hc
    obtain rfl : t = .of (.string (placeholderText "base")) := by simpa [places] using hm
    exact ⟨_, _, rfl, ahead⟩
  · apply (engine.resolution_confluent aliasTree).2
    intro place t hm source hv
    have places : aliasTree.places = [(["accent"], .of (.string (placeholderText "base"))),
        (["base"], .of (.string "red"))] := rfl
    rw [places, List.mem_pair] at hm
    rcases hm with he | he
    · obtain ⟨rfl, rfl⟩ := Prod.mk.inj he
      obtain rfl := Json.string.inj hv
      exact ⟨_, accent⟩
    · obtain ⟨rfl, rfl⟩ := Prod.mk.inj he
      obtain rfl := Json.string.inj hv
      exact ⟨_, base⟩

end Engine

end DesignTokens
