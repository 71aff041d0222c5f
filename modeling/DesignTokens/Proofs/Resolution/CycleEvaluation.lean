import DesignTokens.Catalog.Builtin
import DesignTokens.Proofs.Resolution.SinglePass
import DesignTokens.Proofs.Resolution.Value

/-!
# What is evaluated beside a cycle

A value that runs into a cycle is not evaluated itself. But calls that it refers to may be: the hook
evaluates the text of every token that expands to a call without placeholders, before it is known
whether another placeholder of the value runs into a cycle, and also after it is. Tokens that run into
the cycle themselves are not among these, since a placeholder is left in their texts.

So functions are applied, and diagnostics about calls raised, exactly for the tokens of this kind that
the value reaches; and nothing is evaluated exactly if there is none.
-/

namespace DesignTokens

open Reference

namespace Expression

variable {catalog : Catalog} {settings : Settings} {text : String}

theorem Outcome.steps_ne_nil {source result : String} {call : Call} {steps : List Step}
    (h : Outcome catalog settings source call result steps) : steps ≠ [] := by
  cases h <;> simp

/-- The evaluation of a call takes a step. -/
theorem exists_step_of_isCall (h : isCall text = true) :
    ∃ step, step ∈ (evaluateText catalog settings [] text : Traced String).steps := by
  obtain ⟨call, hc⟩ : ∃ call, Call.parse? text = some call := by
    rw [← Option.ne_none_iff_exists', ne_eq, parse?_eq_none_iff]
    simp [h]
  obtain ⟨step, hs⟩ := List.exists_mem_of_ne_nil _ (outcome_of_call catalog settings hc).steps_ne_nil
  refine ⟨step, ?_⟩
  rw [steps_evaluateText, calls_of_call hc]
  exact List.mem_flatMap.2 ⟨text, by simp, hs⟩

end Expression

namespace Scope

open Expression (CallStep)

variable (scope : Scope) {source path call : String} {step : Step}

/-- The token at a path expands to a call without placeholders, so the hook evaluates it. -/
def Evaluates (scope : Scope) (path call : String) : Prop :=
  ∃ inner, TextAt scope.tree path inner ∧
    call = (expandText scope.tree scope.evaluateExpanded [] inner).value ∧
      isCall call = true ∧ occursIn call = false

/-- A token that expands to a text without placeholders runs into no cycle. -/
theorem acyclic_of_plain {chain : List String} {inner : String}
    (ht : target scope.tree path = .text inner)
    (h : occursIn (expandText scope.tree scope.evaluateExpanded chain inner).value = false) :
    Acyclic scope.tree path := by
  apply acyclic_of_not_occursIn _ ht h
  intro text ho
  rw [evaluateExpanded_of_occursIn scope ho]
  rfl

theorem Evaluates.acyclic {scope : Scope} (h : scope.Evaluates path call) :
    Acyclic scope.tree path := by
  obtain ⟨inner, ht, rfl, -, plain⟩ := h
  exact scope.acyclic_of_plain (textAt_iff.1 ht) plain

/-- With the chain along which a token is met, it is evaluated as it is without one. -/
theorem evaluates_iff_of_met {chain : List String} {inner : String}
    (hm : Met scope.tree source chain path) (ht : target scope.tree path = .text inner) :
    scope.Evaluates path call ↔
      call = (expandText scope.tree scope.evaluateExpanded (chain ++ [path]) inner).value ∧
        isCall call = true ∧ occursIn call = false := by
  constructor
  · intro h
    have acyclic := h.acyclic
    obtain ⟨inner', ht', rfl, isCall, plain⟩ := h
    obtain rfl : inner' = inner := by simpa [ht] using (textAt_iff.1 ht').symm
    rw [expandText_eq_of_clear acyclic ht (hm.clear acyclic)]
    exact ⟨rfl, isCall, plain⟩
  · rintro ⟨rfl, isCall, plain⟩
    -- no placeholder is left, so the token is acyclic and the chain makes no difference
    have acyclic := scope.acyclic_of_plain ht plain
    rw [expandText_eq_of_clear acyclic ht (hm.clear acyclic)] at isCall plain ⊢
    exact ⟨inner, textAt_iff.2 ht, rfl, isCall, plain⟩

/-- The steps of applying calls are those of evaluating the tokens that a text reaches. -/
theorem mem_steps_expandText_iff_evaluates (hs : CallStep step) :
    step ∈ (expandText scope.tree scope.evaluateExpanded [] source).steps ↔
      ∃ path call, Reaches scope.tree source path ∧ scope.Evaluates path call ∧
        step ∈ (Expression.evaluateText scope.catalog scope.settings [] call : Traced String).steps := by
  rw [mem_steps_expandText_iff_met]
  constructor
  · rintro ⟨chain, path, met, own⟩
    rcases of_mem_ownSteps own with concerns | ⟨-, inner, ht, rfl | hook⟩
    · exact absurd hs concerns.not_callStep
    · cases hs
    · obtain ⟨isCall, plain, steps⟩ := scope.mem_steps_evaluateExpanded.1 hook
      exact ⟨path, _, met.reaches, (scope.evaluates_iff_of_met met ht).2 ⟨rfl, isCall, plain⟩, steps⟩
  · rintro ⟨path, call, reaches, evaluates, steps⟩
    obtain ⟨chain, met, fresh⟩ := reaches.exists_met
    obtain ⟨inner, ht, -⟩ := id evaluates
    obtain ⟨rfl, isCall, plain⟩ := (scope.evaluates_iff_of_met met (textAt_iff.1 ht)).1 evaluates
    refine ⟨chain, path, met, ?_⟩
    have hook := scope.mem_steps_evaluateExpanded.2 ⟨isCall, plain, steps⟩
    simp [ownSteps, fresh, textAt_iff.1 ht, hook]

section Cycle

variable (h : ReachesCycle scope.tree source)
include h

/-- A value that runs into a cycle applies the calls of the tokens that it reaches. -/
theorem mem_steps_resolve_iff_evaluates (hs : CallStep step) :
    step ∈ (scope.resolve (.string source)).steps ↔
      ∃ path call, Reaches scope.tree source path ∧ scope.Evaluates path call ∧
        step ∈ (Expression.evaluateText scope.catalog scope.settings [] call : Traced String).steps := by
  have noted : step ≠ .noted (leftAsWrittenEvent source) := by
    rintro rfl
    exact not_callStep_leftAsWritten source hs
  have whole : step ∉ (wholeValue scope.tree [] source).steps := by
    intro hw
    rcases concerns_of_wholeValue hw with ⟨path, -, concerns⟩ | ⟨path, rfl⟩
    · exact concerns.not_callStep hs
    · exact not_callStep_typed path hs
  have text : (wholeValue scope.tree [] source).value = none := by
    by_contra hv
    obtain ⟨value, hv⟩ := Option.ne_none_iff_exists'.1 hv
    exact not_reachesCycle_of_wholeValue hv h
  rw [steps_resolve_of_reachesCycle scope h, List.mem_append, or_iff_left (by simpa using noted),
    mem_steps_expand, or_iff_right whole, and_iff_right text,
    mem_steps_expandText_iff_evaluates scope hs]

/-- A value that runs into a cycle evaluates nothing exactly if no token that it reaches is evaluated. -/
theorem not_callStep_iff :
    (∀ step ∈ (scope.resolve (.string source)).steps, ¬ CallStep step) ↔
      ∀ path call, Reaches scope.tree source path → ¬ scope.Evaluates path call := by
  constructor
  · intro none path call reaches evaluates
    obtain ⟨inner, -, -, isCall, -⟩ := id evaluates
    obtain ⟨step, hs⟩ := Expression.exists_step_of_isCall isCall
    have applied : CallStep step := Expression.callStep_of_mem_steps _ _ hs
    refine none step ?_ applied
    exact (scope.mem_steps_resolve_iff_evaluates h applied).2 ⟨path, call, reaches, evaluates, hs⟩
  · intro none step hs applied
    obtain ⟨path, call, reaches, evaluates, -⟩ :=
      (scope.mem_steps_resolve_iff_evaluates h applied).1 hs
    exact none path call reaches evaluates

end Cycle

/-- What is evaluated for a value that runs into a cycle. The value comes back as it is written, on
every recorder, and takes no step after its references have been expanded but the note about this. The
calls that are applied are those that the tokens which it reaches expand to, if no placeholder is left
in them; such tokens run into no cycle. So nothing is evaluated exactly if the value reaches no such
token; and all diagnostics are about references or about these calls. -/
theorem cycle_evaluates_tokens (h : ReachesCycle scope.tree source) :
    (∀ r : Recorder,
      scope.process (.string source) r = (scope.resolve (.string source)).perform r ∧
        (scope.process (.string source) r).1 = .string source) ∧
      (scope.resolve (.string source)).steps =
        (scope.expand (.string source)).steps ++ [.noted (leftAsWrittenEvent source)] ∧
      (∀ step, CallStep step →
        (step ∈ (scope.resolve (.string source)).steps ↔
          ∃ path call, Reaches scope.tree source path ∧ scope.Evaluates path call ∧
            step ∈ (Expression.evaluateText scope.catalog scope.settings [] call :
              Traced String).steps)) ∧
      (∀ path call, scope.Evaluates path call → Acyclic scope.tree path) ∧
      ((∀ step ∈ (scope.resolve (.string source)).steps, ¬ CallStep step) ↔
        ∀ path call, Reaches scope.tree source path → ¬ scope.Evaluates path call) ∧
      ∀ e ∈ (scope.resolve (.string source)).events,
        e.code ∈ codes ∨ e.code ∈ Expression.callCodes := by
  refine ⟨?_, scope.steps_resolve_of_reachesCycle h, ?_, ?_, scope.not_callStep_iff h, ?_⟩
  · intro r
    rw [process_eq]
    exact ⟨rfl, scope.value_resolve_of_reachesCycle h⟩
  · intro step applied
    exact scope.mem_steps_resolve_iff_evaluates h applied
  · intro path call evaluates
    exact evaluates.acyclic
  · intro e he
    exact scope.code_of_mem_events_resolve he

section Tangle

/-- Tokens for a call of a function that does not exist, and for a value that refers to itself. -/
def tangle : Scope where
  catalog := .builtin
  settings := { Settings.builtin with cssPassthrough := [] }
  tree := ⟨[("call", .token (.of (.string "nope(1)"))),
    ("loop", .token (.of (.string (placeholderText "loop"))))]⟩

/-- A text that refers to the call, and to the loop. -/
def tangled : String := placeholderText "call" ++ " " ++ placeholderText "loop"

theorem reaches_tangled_call : Reaches tangle.tree tangled "call" :=
  ⟨"call", ⟨by decide, [], (" " ++ placeholderText "loop").toList, by simp [tangled]⟩, .refl⟩

theorem reachesCycle_tangled : ReachesCycle tangle.tree tangled := by
  have loop : target tangle.tree "loop" = .text (placeholderText "loop") := rfl
  have occurs : Occurs "loop" tangled :=
    ⟨by decide, (placeholderText "call" ++ " ").toList, [], by simp [tangled]⟩
  refine ⟨"loop", ⟨"loop", occurs, .refl⟩, .single ((references_iff loop).2 ?_)⟩
  simp [find_placeholderText (show isPath "loop".toList by decide)]

theorem evaluates_tangle_call : tangle.Evaluates "call" "nope(1)" := by
  refine ⟨"nope(1)", textAt_iff.2 rfl, ?_, by decide, ?_⟩
  · rw [value_expandText, substitute_of_notMem (by decide)]
  · exact occursIn_eq_false_iff.2 (find_of_notMem (by decide))

theorem call?_nope : tangle.catalog.call? "nope" ["1"] tangle.settings = none := by
  have absent : (Catalog.builtin.get? "nope").isNone = true := by decide +kernel
  exact Option.map_eq_none_iff.2 (Option.isNone_iff_eq_none.1 absent)

theorem steps_nope :
    (Expression.evaluateText tangle.catalog tangle.settings [] "nope(1)" : Traced String).steps =
      [.raised (Expression.unknownEvent "nope(1)" "nope")] := by
  have parsed : Call.parse? "nope(1)" = some ⟨"nope", ["1"]⟩ := rfl
  rw [Expression.evaluateText_of_parse? parsed (by decide),
    Expression.Outcome.apply_eq_absent call?_nope, Expression.Outcome.unanswered_eq_kept rfl]

/-- The call beside the loop is evaluated. -/
theorem cycle_evaluates_tokens_tangled :
    ReachesCycle tangle.tree tangled ∧
      (∀ r : Recorder, (tangle.process (.string tangled) r).1 = .string tangled) ∧
      .raised (Expression.unknownEvent "nope(1)" "nope") ∈
        (tangle.resolve (.string tangled)).steps := by
  obtain ⟨written, -, applied, -⟩ := tangle.cycle_evaluates_tokens reachesCycle_tangled
  refine ⟨reachesCycle_tangled, fun r => (written r).2, ?_⟩
  apply (applied _ (.raised (by simp [Expression.callCodes]))).2
  exact ⟨"call", "nope(1)", reaches_tangled_call, evaluates_tangle_call, by simp [steps_nope]⟩

/-- The text with the call and the loop runs into a cycle, and a diagnostic about the call is raised
and counted all the same. -/
theorem cycle_raises_unknown_tangled :
    ReachesCycle tangle.tree tangled ∧
      (∃ e ∈ (tangle.resolve (.string tangled)).events, e.code = .unknownFunction) ∧
      ∀ r : Recorder, r.collector.count .unknownFunction <
        (tangle.process (.string tangled) r).2.collector.count .unknownFunction := by
  have raised : (tangle.resolve (.string tangled)).raises .unknownFunction = true := by
    have step : .raised (Expression.unknownEvent "nope(1)" "nope") ∈
        (tangle.resolve (.string tangled)).steps := by
      apply (tangle.mem_steps_resolve_iff_evaluates reachesCycle_tangled _).2
      · exact ⟨"call", "nope(1)", reaches_tangled_call, evaluates_tangle_call, by simp [steps_nope]⟩
      · exact .raised (by simp [Expression.callCodes])
    exact Traced.raises_iff.2 ⟨_, List.mem_filterMap.2 ⟨_, step, rfl⟩, rfl⟩
  refine ⟨reachesCycle_tangled, Traced.raises_iff.1 raised, ?_⟩
  intro r
  rw [process_eq, Recorder.count_lt_count_perform]
  exact raised

end Tangle

end Scope

end DesignTokens
