import DesignTokens.Proofs.Engine.Revision
import DesignTokens.Proofs.Resolution.Literal

/-!
# Resolving a document

A document is resolved without loss outside the tokens whose values change. Inside such a token the
value is replaced, and the old text becomes the original of the token. An original that is no text is
overwritten by it, though any other entry is carried along whatever it holds.
-/

namespace DesignTokens.Engine

open KeyedList (get?)
open Reference (placeholderText)

/-- A resolved document differs from the document in tokens only. Every object is resolved to an object
with the same entries, at every depth, but that the tokens have been revised: each has the value that
its own value resolves to. If this is the value it had, the token is as it was. Otherwise only the entry
of its value, in its own spelling, and its original may be other ones, and the original is the text
that was there, or else the text that the value was. -/
theorem document_revised_in_tokens (engine : Engine) (entries : KeyedList Json)
    (h : (Json.object entries).Canonical) :
    ∃ tree outcome revised,
      Tree.ofJson (.object entries) = .ok tree ∧
        engine.resolveDocument (.object entries) = .ok outcome ∧
        outcome.value = .object revised ∧
        Json.TokenwiseAll
          (fun before after => ∃ style old,
            Token.Revision style old (engine.resolveOne tree old).value before after)
          entries revised := by
  refine ⟨_, _, _, Tree.ofJson_object entries, rfl, rfl, ?_⟩
  rw [value_resolveAll]
  apply Node.tokenwise_mapAll _ entries h.2
  intro before t hs ht
  refine ⟨t.style, t.value, Token.revision_withResolved hs ht ?_⟩
  rw [value_resolveOne]
  exact Scope.value_resolve_eq_or _ t.value

section Accented

/-- The engine of the built-in functions and settings. -/
def builtin : Engine := ⟨.builtin, .builtin⟩

/-- A document with an alias of a color. The original of the alias is a number. -/
def accented : KeyedList Json :=
  [("accent", .object
      [("original", .number (.integer 5)), ("value", .string (placeholderText "base"))]),
    ("base", .object [("value", .string "red")])]

theorem document_revised_in_tokens_accented :
    (Json.object accented).Canonical ∧
      ∃ tree outcome revised,
        Tree.ofJson (.object accented) = .ok tree ∧
          builtin.resolveDocument (.object accented) = .ok outcome ∧
          outcome.value = .object revised ∧
          Json.TokenwiseAll
            (fun before after => ∃ style old,
              Token.Revision style old (builtin.resolveOne tree old).value before after)
            accented revised :=
  ⟨by decide, builtin.document_revised_in_tokens accented (by decide)⟩

/-- The alias as a token. -/
def accentToken : Token where
  value := .string (placeholderText "base")
  type := none
  description := none
  original := none
  extensions := [("original", .number (.integer 5))]
  style := .plain

/-- The color as a token. -/
def baseToken : Token := .of (.string "red")

/-- The tokens of the document. -/
def accentedTree : Tree := ⟨[("accent", .token accentToken), ("base", .token baseToken)]⟩

theorem value_resolveOne_accentedTree {t : Token} (h : t = accentToken ∨ t = baseToken) :
    (builtin.resolveOne accentedTree t.value).value = .string "red" := by
  rw [value_resolveOne]
  rcases h with rfl | rfl
  · exact Scope.literal_red.value_resolve_placeholderText (by decide) rfl
  · exact Scope.literal_red.value_resolve

/-- The alias resolves to the color, and the number gives way to the text of the alias. -/
theorem resolveDocument_accented :
    ∃ outcome, builtin.resolveDocument (.object accented) = .ok outcome ∧
      outcome.value = .object
        [("accent", .object
            [("original", .string (placeholderText "base")), ("value", .string "red")]),
          ("base", .object [("value", .string "red")])] := by
  refine ⟨_, rfl, ?_⟩
  change (builtin.resolveAll accentedTree).value.toJson = _
  rw [value_resolveAll]
  change Json.object
    [("accent", (accentToken.withResolved _).toJson),
      ("base", (baseToken.withResolved _).toJson)] = _
  rw [value_resolveOne_accentedTree (.inl rfl), value_resolveOne_accentedTree (.inr rfl)]
  decide

/-- So not every entry that a document has besides its values is found in the resolved document. -/
theorem original_lost_accented :
    ¬ ∀ outcome revised, builtin.resolveDocument (.object accented) = .ok outcome →
      outcome.value = .object revised →
        Json.TokenwiseAll
          (fun before after => ∀ key value, key ≠ "value" → key ≠ "$value" →
            get? before key = some value → get? after key = some value)
          accented revised := by
  intro kept
  obtain ⟨outcome, resolved, value⟩ := resolveDocument_accented
  obtain ⟨-, accent, -⟩ := kept outcome _ resolved value
  exact absurd (accent "original" (.number (.integer 5)) (by decide) (by decide) rfl) (by decide)

end Accented

end DesignTokens.Engine
