import DesignTokens.Proofs.Engine.Independence
import DesignTokens.Proofs.Resolution.Literal

/-!
# What is substituted for a token is what it resolves to

A token is evaluated in two places: by the hook, while it is expanded inside another value, and by the
last step of its own resolution. The two agree wherever the expanded text of the token holds no
placeholder: what another value gets for the token is what the resolved tree holds there, or the JSON
text of it with nothing but blanks around it.
-/

namespace DesignTokens

open Reference Text

namespace Engine

/-- What is substituted for a token is what the token itself resolves to. Let a token have a string
value that reaches no cycle and holds no placeholder once its references are expanded. Then wherever
its placeholder is expanded in the course of any value, the text put in writes what the resolved tree
holds at its path: it is that string, or the JSON text of another value with nothing but blanks around
it. So every text expands to the text with this put in for the placeholder. -/
theorem substituted_is_resolved (engine : Engine) {tree : Tree} {path inner : String}
    (ht : TextAt tree path inner) (hn : ¬ ReachesCycle tree inner)
    (hp : (engine.scope tree).Plain inner) :
    ∃ resolved : Json,
      ((engine.resolveAll tree).value.token? path).map Token.value = some resolved ∧
      (∀ (text : String) (chain : List String), Met tree text chain path →
        ∀ {σ : Type} [Observer σ] (s : Guarded σ), s.chain = chain →
          resolved.WrittenAs
            (Guarded.expandPath tree (engine.scope tree).evaluateExpanded path s).1) ∧
      ∀ (text : String) {σ : Type} [Observer σ] (state : σ), ∃ put : String → String,
        (Guarded.expandText tree (engine.scope tree).evaluateExpanded text
          (.start [] state)).1 = substitute put text ∧ resolved.WrittenAs (put path) := by
  have leads : target tree path = .text inner := textAt_iff.1 ht
  have acyclic : Acyclic tree path :=
    .of_text leads fun other ho => acyclic_of_not_reachesCycle hn ho
  have written := (engine.scope tree).writtenAs_expandPath acyclic leads hn hp
  refine ⟨((engine.scope tree).resolve (.string inner)).value, ?_, ?_, ?_⟩
  · obtain ⟨t, htoken, hvalue⟩ := ht
    rw [value_token?_resolveAll, htoken, Option.map_some, hvalue]
  · intro text chain met σ _ s hs
    have value : (Guarded.expandPath tree (engine.scope tree).evaluateExpanded path s).1 =
        (expandPath tree (engine.scope tree).evaluateExpanded chain path).value := by
      rw [← hs]
      exact ((engine.scope tree).follows_expandPath path s).value
    rw [value, expandPath_eq_of_clear acyclic (met.clear acyclic)]
    exact written
  · intro text σ _ state
    refine ⟨fun path => (expandPath tree (engine.scope tree).evaluateExpanded [] path).value, ?_,
      written⟩
    rw [← value_expandText]
    exact ((engine.scope tree).follows_expandText text (.start [] state)).value

/-- Between other characters, the call of the palette becomes what its token resolves to. This is a
call again, and it is not evaluated once more. -/
theorem substituted_is_resolved_tone :
    let engine : Engine := ⟨Scope.palette.catalog, Scope.palette.settings⟩
    let tree := Scope.palette.tree
    let text := "1px " ++ placeholderText "tone" ++ " solid"
    TextAt tree "tone" Scope.toneText ∧ ¬ ReachesCycle tree Scope.toneText ∧
      (engine.scope tree).Plain Scope.toneText ∧ Met tree text [] "tone" ∧
      ((engine.resolveAll tree).value.token? "tone").map Token.value =
          some (.string "twice(red, red)") ∧
        (Guarded.expandPath tree (engine.scope tree).evaluateExpanded "tone"
          (.start [] (Recorder.start none))).1 = "twice(red, red)" := by
  intro engine tree text
  have token : TextAt tree "tone" Scope.toneText := textAt_iff.2 Scope.target_palette_tone
  have met : Met tree text [] "tone" := by
    refine ⟨"tone", ?_, .refl⟩
    rw [find_around (by decide) (by decide) (by decide)]
    exact List.mem_singleton_self _
  obtain ⟨resolved, held, put, -⟩ := engine.substituted_is_resolved token
    Scope.not_reachesCycle_toneText Scope.plain_toneText
  have value : resolved = .string "twice(red, red)" := by
    have own := engine.value_token?_resolveAll tree "tone"
    rw [held] at own
    exact (Option.some.inj own).trans Scope.value_resolve_tone
  refine ⟨token, Scope.not_reachesCycle_toneText, Scope.plain_toneText, met, ?_, ?_⟩
  · rw [held, value]
  · have written := put text [] met (.start [] (Recorder.start none)) rfl
    rwa [value] at written

end Engine

end DesignTokens
