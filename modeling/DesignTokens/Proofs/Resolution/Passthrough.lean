import DesignTokens.Catalog.Builtin
import DesignTokens.Proofs.Evaluation.Outcome
import DesignTokens.Proofs.Expression.Layout
import DesignTokens.Proofs.Resolution.Literal

/-!
# Calls that are left for the browser

A call that no function is registered for and that is on the list of calls for the browser comes back
as its signature: taken apart into its arguments and put together anew. Where its pieces are not spaced
as in a signature, this is another text than the one that was written: blanks come and go beside commas
and parentheses, and an empty last argument is lost.
-/

namespace DesignTokens.Scope

open Expression (passthroughEvent pieces spaced)
open Reference (occursIn)
open Text (trim)

variable (scope : Scope) {text : String} {call : Call}

section Browser

variable (hc : Call.parse? text = some call)
  (absent : scope.catalog.contains call.name = false)
  (listed : scope.settings.isCssPassthrough call.name = true) (plain : occursIn text = false)
  (flat : ∀ arg ∈ call.arguments, isCall arg = false)
include hc absent listed plain flat

/-- A call that is left for the browser comes back as its signature, on every recorder. -/
theorem process_of_browser (r : Recorder) :
    scope.process (.string text) r =
      (.string call.signature, Observer.observe r (.raised (passthroughEvent text call.name))) := by
  have unanswered : scope.catalog.call? call.name call.arguments scope.settings = none := by
    have none : KeyedList.get? scope.catalog.entries call.name = none := by
      simpa [Catalog.contains, KeyedList.contains] using absent
    rw [Catalog.call?, Catalog.get?, none]
    rfl
  have evaluated : (scope.evaluateValue (.string text) : Traced Json) =
      ⟨.string call.signature, [.raised (passthroughEvent text call.name)]⟩ := by
    rw [evaluateValue, Expression.evaluateText_of_parse? hc flat,
      Expression.Outcome.apply_eq_absent unanswered,
      Expression.Outcome.unanswered_eq_passed listed]
    rfl
  rw [process_eq, scope.resolve_of_plain plain, evaluated]
  rfl

/-- A call that is left for the browser comes back as its signature, and nothing is recorded but that it
is left. The signature is the text of the call exactly if nothing stands around this text and its pieces
are spaced as in a signature. -/
theorem left_for_browser_as_signature :
    (∀ r : Recorder, scope.process (.string text) r =
        (.string call.signature,
          Observer.observe r (.raised (passthroughEvent text call.name)))) ∧
      ∃ body, Call.Written call body text ∧
        (call.signature = text ↔
          trim text.toList = text.toList ∧
            pieces .outside body = spaced (call.arguments.map String.toList)) := by
  obtain ⟨body, written⟩ := Call.exists_written hc
  exact ⟨scope.process_of_browser hc absent listed plain flat, body, written,
    written.signature_eq_iff⟩

end Browser

section Picture

/-- The address of a picture in a call for the browser; a comma stands in it without a blank. -/
def pictureText : String := "url(data:image/png;base64,AAAA)"

theorem parse?_pictureText :
    Call.parse? pictureText = some ⟨"url", ["data:image/png;base64", "AAAA"]⟩ := rfl

/-- The built-in functions and settings, and no tokens. -/
def bare : Scope := ⟨.builtin, .builtin, .empty⟩

theorem occursIn_pictureText : occursIn pictureText = false :=
  Reference.occursIn_eq_false_iff.2 (Reference.find_of_notMem (by decide))

theorem contains_url : bare.catalog.contains "url" = false := by decide +kernel

theorem isCssPassthrough_url : bare.settings.isCssPassthrough "url" = true :=
  List.any_eq_true.2 ⟨"url", by decide, by simp [Text.sameLetters]⟩

theorem left_for_browser_as_signature_picture :
    Call.parse? pictureText = some ⟨"url", ["data:image/png;base64", "AAAA"]⟩ ∧
      bare.catalog.contains "url" = false ∧ bare.settings.isCssPassthrough "url" = true ∧
      occursIn pictureText = false ∧
      (∀ arg ∈ ["data:image/png;base64", "AAAA"], isCall arg = false) ∧
      (∀ r : Recorder, bare.process (.string pictureText) r =
        (.string "url(data:image/png;base64, AAAA)",
          Observer.observe r (.raised (passthroughEvent pictureText "url")))) :=
  ⟨parse?_pictureText, contains_url, isCssPassthrough_url, occursIn_pictureText, by decide,
    (bare.left_for_browser_as_signature parse?_pictureText contains_url isCssPassthrough_url
      occursIn_pictureText (by decide)).1⟩

/-- So a call that is left for the browser does not always come back as it was written. -/
theorem picture_changed :
    ¬ ∀ (scope : Scope) (text : String) (call : Call),
      Call.parse? text = some call → scope.catalog.contains call.name = false →
        scope.settings.isCssPassthrough call.name = true → occursIn text = false →
          (∀ arg ∈ call.arguments, isCall arg = false) →
            ∀ r : Recorder, (scope.process (.string text) r).1 = .string text := by
  intro unchanged
  have same := unchanged bare pictureText _ parse?_pictureText contains_url isCssPassthrough_url
    occursIn_pictureText (by decide) (.start none)
  rw [bare.process_of_browser parse?_pictureText contains_url isCssPassthrough_url
    occursIn_pictureText (by decide)] at same
  exact absurd same (by decide)

end Picture

end DesignTokens.Scope
