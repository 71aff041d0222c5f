import DesignTokens.Proofs.Diagnostic.Recording
import DesignTokens.Proofs.Engine.Independence
import DesignTokens.Proofs.Reference.Unwinding
import DesignTokens.Proofs.Resolution.Diagnostics
import DesignTokens.Proofs.Resolution.Literal
import DesignTokens.Proofs.Tree.Walk

/-!
# What a walk keeps, counts and collects

A walk replaces values and keeps all else. All tokens share one collector, and still the counts of a
walk say of each token what resolving it alone says: the diagnostics of a token are taken in with its
path, so they repeat none of another token, provided that no two tokens have one path.
-/

namespace DesignTokens

namespace Token

variable {t : Token} {new : Json}

/-- A token with the value that its own value resolves to. -/
structure Resolved (new : Json) (t u : Token) : Prop where
  value : u.value = new
  type : u.type = t.type
  description : u.description = t.description
  extensions : u.extensions = t.extensions
  style : u.style = t.style
  original : u.original = (t.original <|> if new = t.value then none else t.text?)
  /-- A token that has changed has an original. -/
  changed : new ≠ t.value → u.original ≠ none

theorem resolved_withResolved (hn : new = t.value ∨ ∃ text, t.value = .string text) :
    Resolved new t (t.withResolved new) := by
  by_cases same : new = t.value
  · rw [withResolved_self same]
    exact ⟨same.symm, rfl, rfl, rfl, rfl, by simp [same], fun changed => absurd same changed⟩
  · obtain ⟨text, hv⟩ := hn.resolve_left same
    rw [withResolved_of_text hv same]
    refine ⟨rfl, rfl, rfl, rfl, rfl, ?_, fun _ => Option.some_ne_none _⟩
    rw [if_neg same, text?, hv]
    cases t.original <;> rfl

end Token

namespace Recorder

/-- What a collector makes of the steps of a value. -/
theorem collector_after {steps : List Step} (h : ∀ step ∈ steps, step.OfValue) (r : Recorder) :
    (Observer.after r steps).collector =
      r.collector.recordAll (steps.filterMap Step.raised?) := by
  induction steps generalizing r with
  | nil => rfl
  | cons step steps ih =>
    have own := h step (by simp)
    rw [Observer.after_cons, ih fun other ho => h other (List.mem_cons_of_mem step ho),
      collector_observe]
    cases step with
    | entered path => exact own.elim
    | left => exact own.elim
    | _ => rfl

end Recorder

namespace Walker

open Collector (recordAll)

variable (scope : Scope) {w : Walker} {entries : List (List String × Token)}

/-- Nothing has been counted and nothing is kept, and no token is being resolved. -/
structure Fresh (w : Walker) : Prop where
  events : w.recorder.collector.events = []
  path : w.recorder.collector.path = none
  stats : w.stats = ⟨0, 0, 0⟩

theorem fresh_start (level : Option Level) : (start level).Fresh := ⟨rfl, rfl, rfl⟩

/-- The diagnostics of the token at a place, with its path. -/
def diagnostics (entry : List String × Token) : List Event :=
  (scope.resolve entry.2.value).events.map (·.inToken (joinPlace entry.1))

theorem path_of_mem_diagnostics {entry : List String × Token} {e : Event}
    (h : e ∈ diagnostics scope entry) : e.path = some (joinPlace entry.1) := by
  obtain ⟨own, -, rfl⟩ := List.mem_map.1 h
  rfl

theorem path_ne_none_of_mem_diagnostics {entry : List String × Token} {e : Event}
    (h : e ∈ diagnostics scope entry) : e.path ≠ none := by
  rw [path_of_mem_diagnostics scope h]
  exact Option.some_ne_none _

theorem level_of_mem_diagnostics {entry : List String × Token} {e : Event}
    (h : e ∈ diagnostics scope entry) : e.isWarning = (e.code != .cssPassthrough) := by
  obtain ⟨own, ho, rfl⟩ := List.mem_map.1 h
  exact (scope.ofValue_of_mem_events ho).level

/-- The state after the token at a place. -/
def visit (w : Walker) (entry : List String × Token) : Walker :=
  (resolveToken scope (joinPlace entry.1) entry.2 w).2

theorem state_walk (tree : Tree) (w : Walker) :
    (tree.walk scope w).2 = tree.places.foldl (visit scope) w :=
  Node.state_walkAll (resolveToken scope) [] tree.root w

section Visit

variable (entry : List String × Token)

/-- The recorder after the token at a place. -/
theorem recorder_visit (w : Walker) :
    (visit scope w entry).recorder =
      Observer.observe
        (Observer.after (Observer.observe w.recorder (.entered (joinPlace entry.1)))
          (scope.resolve entry.2.value).steps) .left := by
  change Observer.observe (scope.process entry.2.value _).2 .left = _
  rw [scope.process_eq]
  rfl

/-- Between tokens, the diagnostics of the next token are taken in with its path. -/
theorem collector_visit (hp : w.recorder.collector.path = none) :
    (visit scope w entry).recorder.collector =
      w.recorder.collector.recordAll (diagnostics scope entry) := by
  have plain : ∀ e ∈ (scope.resolve entry.2.value).events, e.path = none :=
    fun e he => (scope.ofValue_of_mem_events he).path
  rw [recorder_visit, Recorder.collector_observe,
    Recorder.collector_after fun step hs => scope.ofValue_of_mem_steps hs,
    Recorder.collector_observe]
  change ((w.recorder.collector.enter (joinPlace entry.1)).recordAll
    (scope.resolve entry.2.value).events).leave = _
  rw [Collector.recordAll_enter plain]
  exact Collector.leave_enter (by rw [Collector.path_recordAll, hp]) _

theorem visited_visit (w : Walker) :
    (visit scope w entry).stats.visited = w.stats.visited + 1 := rfl

theorem changed_visit (w : Walker) :
    (visit scope w entry).stats.changed =
      w.stats.changed +
        if (scope.resolve entry.2.value).value ≠ entry.2.value then 1 else 0 := by
  change w.stats.changed + (if (scope.process entry.2.value _).1 ≠ _ then 1 else 0) = _
  rw [scope.value_process]

theorem unresolved_visit (w : Walker) :
    (visit scope w entry).stats.unresolved =
      w.stats.unresolved +
        if w.recorder.collector.warningCount <
          (visit scope w entry).recorder.collector.warningCount then 1 else 0 := rfl

end Visit

section Run

theorem visited_foldl (w : Walker) :
    (entries.foldl (visit scope) w).stats.visited = w.stats.visited + entries.length := by
  induction entries generalizing w with
  | nil => rfl
  | cons entry entries ih =>
    rw [List.foldl_cons, ih, visited_visit, List.length_cons]
    omega

theorem changed_foldl (w : Walker) :
    (entries.foldl (visit scope) w).stats.changed =
      w.stats.changed + entries.countP fun entry =>
        decide ((scope.resolve entry.2.value).value ≠ entry.2.value) := by
  induction entries generalizing w with
  | nil => rfl
  | cons entry entries ih =>
    rw [List.foldl_cons, ih, changed_visit, List.countP_cons]
    simp only [decide_eq_true_eq]
    omega

/-- The diagnostics of all tokens are taken in, each with the path of its token. -/
theorem collector_foldl (hp : w.recorder.collector.path = none) :
    (entries.foldl (visit scope) w).recorder.collector =
      w.recorder.collector.recordAll (entries.flatMap (diagnostics scope)) := by
  induction entries generalizing w with
  | nil => rfl
  | cons entry entries ih =>
    have next := collector_visit scope entry hp
    rw [List.foldl_cons, ih (by rw [next, Collector.path_recordAll, hp]), next, List.flatMap_cons,
      Collector.recordAll_append]

/-- A token without a kept diagnostic counts as unresolved exactly if resolving it raises a warning. -/
theorem warned_visit (entry : List String × Token) (hp : w.recorder.collector.path = none)
    (hn : ∀ kept ∈ w.recorder.collector.events, kept.path ≠ some (joinPlace entry.1)) :
    w.recorder.collector.warningCount < (visit scope w entry).recorder.collector.warningCount ↔
      (scope.resolve entry.2.value).events.any (·.isWarning) = true := by
  have same : (diagnostics scope entry).any (·.isWarning) =
      (scope.resolve entry.2.value).events.any (·.isWarning) := List.any_map
  rw [collector_visit scope entry hp, Collector.warningCount_lt_recordAll_iff, same]
  · exact fun e he => path_ne_none_of_mem_diagnostics scope he
  · intro e he other ho code
    rw [level_of_mem_diagnostics scope he, level_of_mem_diagnostics scope ho, code]
  · intro e he _
    apply Bool.eq_false_iff.2
    intro again
    obtain ⟨kept, hk, same⟩ := Collector.repeats_iff.1 again
    apply hn kept hk
    rw [Event.path_eq_of_sameDiagnostic same, path_of_mem_diagnostics scope he]

theorem unresolved_foldl (hp : w.recorder.collector.path = none)
    (distinct : (entries.map fun entry => joinPlace entry.1).Nodup)
    (hn : ∀ kept ∈ w.recorder.collector.events, ∀ entry ∈ entries,
      kept.path ≠ some (joinPlace entry.1)) :
    (entries.foldl (visit scope) w).stats.unresolved =
      w.stats.unresolved + entries.countP fun entry =>
        (scope.resolve entry.2.value).events.any (·.isWarning) := by
  induction entries generalizing w with
  | nil => rfl
  | cons entry entries ih =>
    obtain ⟨new, distinct⟩ := List.nodup_cons.1 distinct
    have next := collector_visit scope entry hp
    have kept_next : ∀ kept ∈ (visit scope w entry).recorder.collector.events,
        ∀ other ∈ entries, kept.path ≠ some (joinPlace other.1) := by
      intro kept hk other ho
      rw [next] at hk
      rcases Collector.mem_events_recordAll
        (fun e he => path_ne_none_of_mem_diagnostics scope he) hk with hk | hk
      · exact hn kept hk other (List.mem_cons_of_mem entry ho)
      · rw [path_of_mem_diagnostics scope hk]
        intro same
        exact new (List.mem_map.2 ⟨other, ho, (Option.some.inj same).symm⟩)
    rw [List.foldl_cons, ih (by rw [next, Collector.path_recordAll, hp]) distinct kept_next,
      unresolved_visit, List.countP_cons]
    simp only [warned_visit scope entry hp fun kept hk => hn kept hk entry (by simp)]
    omega

end Run

end Walker

namespace Tree

open Walker (diagnostics)

/-- A walk from a fresh state accounts for every token. The tree stays as it is but for the tokens, and
they stay but for their values and originals. All tokens are visited; those count as changed whose
values are others than before, and, if no two tokens have one path, those count as unresolved that raise
a warning when they are resolved alone. The collector has taken in the diagnostics of one token after
another, each with the path of its token, and keeps no others. -/
theorem walk_accounts_for_tokens (scope : Scope) (tree : Tree) {w : Walker} (fresh : w.Fresh) :
    ∃ resolved w', tree.walk scope w = (resolved, w') ∧
      Node.TokenwiseAll
        (fun t u => ∀ r : Recorder, Token.Resolved (scope.process t.value r).1 t u)
        tree.root resolved.root ∧
      w'.stats.visited = tree.tokenCount ∧
      (w'.stats.changed = tree.tokens.countP fun t =>
        decide ((scope.resolve t.value).value ≠ t.value)) ∧
      (tree.paths.Nodup → w'.stats.unresolved = tree.tokens.countP fun t =>
        (scope.resolve t.value).events.any (·.isWarning)) ∧
      w'.recorder.collector =
        w.recorder.collector.recordAll (tree.places.flatMap (diagnostics scope)) ∧
      ∀ e ∈ w'.recorder.collector.events, ∃ place t, (place, t) ∈ tree.places ∧
        e.path = some (joinPlace place) ∧ e ∈ diagnostics scope (place, t) := by
  have collected : (tree.walk scope w).2.recorder.collector =
      w.recorder.collector.recordAll (tree.places.flatMap (diagnostics scope)) := by
    rw [Walker.state_walk, Walker.collector_foldl scope fresh.path]
  refine ⟨(tree.walk scope w).1, (tree.walk scope w).2, rfl, ?rebuilt, ?visited, ?changed,
    ?unresolved, collected, ?kept⟩
  case rebuilt =>
    rw [tree.value_walk]
    apply Node.tokenwiseAll_mapAll
    intro t r
    rw [scope.value_process]
    exact Token.resolved_withResolved (scope.value_resolve_eq_or t.value)
  case visited =>
    rw [Walker.state_walk, Walker.visited_foldl, fresh.stats, Nat.zero_add, ← tree.length_paths,
      tree.paths_eq, List.length_map]
  case changed =>
    rw [Walker.state_walk, Walker.changed_foldl, fresh.stats, Nat.zero_add, tree.tokens_eq,
      List.countP_map]
    rfl
  case unresolved =>
    intro distinct
    rw [tree.paths_eq] at distinct
    rw [Walker.state_walk, Walker.unresolved_foldl scope fresh.path distinct (by simp [fresh.events]),
      fresh.stats, Nat.zero_add, tree.tokens_eq, List.countP_map]
    rfl
  case kept =>
    intro e he
    rw [collected] at he
    have own (e : Event) (he : e ∈ tree.places.flatMap (diagnostics scope)) : e.path ≠ none := by
      obtain ⟨entry, -, he⟩ := List.mem_flatMap.1 he
      exact Walker.path_ne_none_of_mem_diagnostics scope he
    rcases Collector.mem_events_recordAll own he with he | he
    · simp [fresh.events] at he
    · obtain ⟨⟨place, t⟩, hp, he⟩ := List.mem_flatMap.1 he
      exact ⟨place, t, hp, Walker.path_of_mem_diagnostics scope he, he⟩

section Stray

/-- A color, and two tokens in different groups with the same call of a function that does not exist. -/
def strays : Tree :=
  ⟨[("base", .token (.of (.string "red"))),
    ("gap", .token (.of (.string "nope(1)"))),
    ("inner", .group [("gap", .token (.of (.string "nope(1)")))])]⟩

/-- No functions, and no calls for the browser. -/
def strayScope : Scope := ⟨.empty, { Settings.builtin with cssPassthrough := [] }, strays⟩

theorem resolve_red : strayScope.resolve (.string "red") = pure (.string "red") := by
  rw [strayScope.resolve_of_plain Scope.literal_red.plain, Scope.evaluateValue,
    Expression.evaluateText_of_not_isCall Scope.literal_red.notCall]
  rfl

theorem resolve_nope :
    strayScope.resolve (.string "nope(1)") =
      ⟨.string "nope(1)", [.raised (Expression.unknownEvent "nope(1)" "nope")]⟩ := by
  have parsed : Call.parse? "nope(1)" = some ⟨"nope", ["1"]⟩ := rfl
  have plain : Reference.occursIn "nope(1)" = false :=
    Reference.occursIn_eq_false_iff.2 (Reference.find_of_notMem (by decide))
  rw [strayScope.resolve_of_plain plain, Scope.evaluateValue,
    Expression.evaluateText_of_parse? parsed (by decide), Expression.Outcome.apply_eq_absent rfl,
    Expression.Outcome.unanswered_eq_kept rfl]
  rfl

/-- The warning about the second call does not repeat the one about the first. -/
theorem walk_accounts_for_tokens_strays :
    (Walker.start none).Fresh ∧ strays.paths.Nodup ∧
      ∃ resolved w', strays.walk strayScope (.start none) = (resolved, w') ∧
        w'.stats = ⟨3, 0, 2⟩ := by
  have distinct : strays.paths.Nodup := by decide
  refine ⟨Walker.fresh_start none, distinct, ?_⟩
  obtain ⟨resolved, ⟨recorder, stats⟩, walked, -, visited, changed, unresolved, -⟩ :=
    strays.walk_accounts_for_tokens strayScope (Walker.fresh_start none)
  refine ⟨resolved, ⟨recorder, stats⟩, walked, ?_⟩
  have tokens : strays.tokens =
      [.of (.string "red"), .of (.string "nope(1)"), .of (.string "nope(1)")] := rfl
  have changed : stats.changed = 0 := by
    rw [changed, tokens]
    simp [Token.of, resolve_red, resolve_nope]
  have unresolved : stats.unresolved = 2 := by
    rw [unresolved distinct, tokens]
    simp only [List.countP_cons, List.countP_nil, Token.of, resolve_red, resolve_nope]
    rfl
  cases stats
  rw [ResolutionStats.mk.injEq]
  exact ⟨visited, changed, unresolved⟩

end Stray

end Tree

end DesignTokens
