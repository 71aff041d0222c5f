import DesignTokens.Proofs.Resolution.Literal

/-!
# Settled tokens

A text settles if it resolves, without a cycle and without a placeholder left, to a literal text. A
token whose text settles may be given the result in its place: of the references to it, the next step
is taken beforehand. `Settled scope other` says that a tree comes from the one of a scope in this way.

References are lost in the other tree, but never one that leads to a cycle. So the same values run
into cycles, and everything else resolves to the same value.
-/

namespace DesignTokens.Scope

open Reference

/-- A text resolves to a literal text: without a cycle, and with no placeholder left after the
references have been expanded. -/
structure Settles (scope : Scope) (source result : String) : Prop where
  clear : ¬ ReachesCycle scope.tree source
  plain : scope.Plain source
  resolved : (scope.resolve (.string source)).value = .string result
  literal : Literal result

/-- A tree leads where the tree of a scope does, but for tokens whose texts have settled. -/
def Settled (scope : Scope) (other : Tree) : Prop :=
  ∀ path, target other path = target scope.tree path ∨
    ∃ inner result, target scope.tree path = .text inner ∧ scope.Settles inner result ∧
      target other path = .text result

variable {scope : Scope} {other : Tree} {path next source inner result : String}

namespace Settles

variable (hs : scope.Settles source result)
include hs

/-- A text that settles does not stand for a value of another type. -/
theorem value_wholeValue : (wholeValue scope.tree [] source).value = none :=
  value_wholeValue_of_string scope hs.clear hs.resolved

theorem acyclic (ht : target scope.tree path = .text source) : Acyclic scope.tree path :=
  .of_text ht fun _ ho => acyclic_of_not_reachesCycle hs.clear ho

/-- A token whose text settles expands to the result. -/
theorem value_expandPath (ht : target scope.tree path = .text source) :
    (expandPath scope.tree scope.evaluateExpanded [] path).value = result :=
  value_expandPath_of_text scope (hs.acyclic ht) ht hs.clear hs.plain hs.resolved

end Settles

/-- A literal text settles as it is. -/
theorem Literal.settles {text : String} (hl : Literal text) : scope.Settles text text where
  clear := hl.not_reachesCycle
  plain := by
    intro expanded he
    rw [value_expand_of_text scope hl.value_wholeValue, hl.value_expandText] at he
    obtain rfl : text = expanded := by simpa using he
    exact hl.plain
  resolved := hl.value_resolve
  literal := hl

/-- An alias of a literal text settles. -/
theorem Literal.settles_placeholderText {text : String} (hl : Literal text)
    (hp : isPath path.toList) (ht : target scope.tree path = .text text) :
    scope.Settles (placeholderText path) text where
  clear := not_reachesCycle_placeholderText hp (hl.acyclic ht)
  plain := by
    intro expanded he
    rw [value_expand_of_text scope (hl.value_wholeValue_placeholderText hp ht),
      expandText_placeholderText _ hp, hl.value_expandPath ht] at he
    obtain rfl : text = expanded := by simpa using he
    exact hl.plain
  resolved := hl.value_resolve_placeholderText hp ht
  literal := hl

namespace Settled

variable (h : scope.Settled other)
include h

section Cycles

/-- A path is acyclic in both trees or in none. -/
theorem acyclic_iff : Acyclic other path ↔ Acyclic scope.tree path := by
  constructor
  · intro ha
    induction ha using Acyclic.induction with
    | text path inner ha ht ih =>
      rcases h path with same | ⟨source, result, hsource, settles, -⟩
      · exact .of_text (same ▸ ht) ih
      · exact settles.acyclic hsource
    | other path ha ht =>
      rcases h path with same | ⟨source, result, -, -, hresult⟩
      · exact .of_target (same ▸ ht)
      · exact absurd hresult (ht result)
  · intro ha
    induction ha using Acyclic.induction with
    | text path inner ha ht ih =>
      rcases h path with same | ⟨source, result, -, settles, hresult⟩
      · exact .of_text (same.trans ht) ih
      · exact settles.literal.acyclic hresult
    | other path ha ht =>
      rcases h path with same | ⟨source, result, hsource, -, -⟩
      · exact .of_target (same ▸ ht)
      · exact absurd hsource (ht source)

theorem reachesCycle_iff : ReachesCycle other source ↔ ReachesCycle scope.tree source := by
  rw [← not_iff_not]
  constructor
  · intro hn
    apply not_reachesCycle
    intro path hp
    exact h.acyclic_iff.1 (acyclic_of_not_reachesCycle hn hp)
  · intro hn
    apply not_reachesCycle
    intro path hp
    exact h.acyclic_iff.2 (acyclic_of_not_reachesCycle hn hp)

end Cycles

section Values

/-- An acyclic path stands for the same value in both trees. -/
theorem value_typedTarget (ha : Acyclic scope.tree path) :
    (typedTarget other [] path).value = (typedTarget scope.tree [] path).value := by
  have ho := h.acyclic_iff.2 ha
  induction ha using Acyclic.induction with
  | text path inner ha ht ih =>
    rw [value_typedTarget_text ha ht]
    rcases h path with same | ⟨source, result, hsource, settles, hresult⟩
    · rw [value_typedTarget_text ho (same.trans ht)]
      apply value_wholeValue_congr
      intro next hn
      have hr := ha.of_references ((references_iff ht).2 hn)
      exact ih next hn (h.acyclic_iff.2 hr)
    · obtain rfl : source = inner := by simpa [ht] using hsource.symm
      rw [value_typedTarget_text ho hresult, settles.literal.value_wholeValue,
        settles.value_wholeValue]
  | other path ha ht =>
    rcases h path with same | ⟨source, result, hsource, -, -⟩
    · have ends : ∀ inner next, target scope.tree path = .text inner → single? inner ≠ some next :=
        fun inner _ hi => absurd hi (ht inner)
      rw [typedTarget_other (by simp) ends, typedTarget_other (by simp) (same ▸ ends), same]
    · exact absurd hsource (ht source)

/-- An acyclic path expands to the same text in both trees. -/
theorem value_expandPath (ha : Acyclic scope.tree path) :
    (expandPath other scope.evaluateExpanded [] path).value =
      (expandPath scope.tree scope.evaluateExpanded [] path).value := by
  have ho := h.acyclic_iff.2 ha
  induction ha using Acyclic.induction with
  | text path inner ha ht ih =>
    rcases h path with same | ⟨source, result, hsource, settles, hresult⟩
    · have inside : (expandText other scope.evaluateExpanded [] inner).value =
          (expandText scope.tree scope.evaluateExpanded [] inner).value := by
        apply value_expandText_congr
        intro next hn
        have hr := ha.of_references ((references_iff ht).2 hn)
        exact ih next hn (h.acyclic_iff.2 hr)
      rw [value_expandPath_text ho (same.trans ht), value_expandPath_text ha ht, inside]
    · rw [settles.value_expandPath hsource]
      -- the hook does not look at the tree
      let after : Scope := { scope with tree := other }
      show (expandPath after.tree after.evaluateExpanded [] path).value = result
      exact settles.literal.value_expandPath hresult
  | other path ha ht =>
    rcases h path with same | ⟨source, result, hsource, -, -⟩
    · rw [expandPath_other _ (by simp) ht, expandPath_other _ (by simp) (same ▸ ht), same]
    · exact absurd hsource (ht source)

/-- Every value resolves to the same value in both trees. -/
theorem value_resolve (value : Json) :
    ({ scope with tree := other }.resolve value).value = (scope.resolve value).value := by
  cases value with
  | string source =>
    by_cases hc : ReachesCycle scope.tree source
    · rw [value_resolve_of_reachesCycle scope hc, value_resolve_of_reachesCycle]
      exact h.reachesCycle_iff.2 hc
    · have ho : ¬ ReachesCycle other source := mt h.reachesCycle_iff.1 hc
      have whole : (wholeValue other [] source).value =
          (wholeValue scope.tree [] source).value := by
        apply value_wholeValue_congr
        intro path hp
        exact h.value_typedTarget (acyclic_of_not_reachesCycle hc hp)
      have expanded : (expandText other scope.evaluateExpanded [] source).value =
          (expandText scope.tree scope.evaluateExpanded [] source).value := by
        apply value_expandText_congr
        intro path hp
        exact h.value_expandPath (acyclic_of_not_reachesCycle hc hp)
      cases hw : (wholeValue scope.tree [] source).value with
      | some value =>
        rw [value_resolve_of_typed scope hc hw, value_resolve_of_typed _ ho (whole.trans hw)]
      | none =>
        rw [value_resolve_of_text scope hc hw, value_resolve_of_text _ ho (whole.trans hw)]
        exact congrArg (fun text => Json.string (Expression.evaluateText scope.catalog
          scope.settings [] text : Traced String).value) expanded
  | _ => rfl

end Values

end Settled

end DesignTokens.Scope
