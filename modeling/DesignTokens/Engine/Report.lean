import DesignTokens.Diagnostic.Collector

/-!
# Reports

The report on a resolution holds the diagnostics that were collected and how many tokens were visited,
changed and left with warnings. It is written as text by token, as text with everything that is known
about each warning, or as JSON.
-/

namespace DesignTokens

/-- How many tokens a resolution visited, changed, and left with warnings. -/
structure ResolutionStats where
  visited : Nat
  changed : Nat
  unresolved : Nat
  deriving DecidableEq, Repr

/-- The report on a resolution. -/
structure Report where
  stats : ResolutionStats
  diagnostics : Collector

namespace Report

def events (r : Report) : List Event := r.diagnostics.events

def hasWarnings (r : Report) : Bool := r.diagnostics.hasWarnings

def summary (r : Report) : EventSummary := r.diagnostics.summary

/-- The events with a code. -/
def withCode (r : Report) (code : Code) : List Event := r.events.filter (·.code == code)

/-- The warnings and errors by token. -/
def text (r : Report) : String := r.diagnostics.report

/-- The warnings and errors with everything that is known about them. -/
def details (r : Report) : String :=
  "\n".intercalate
    ((r.events.filter fun e => e.isWarning || e.isError).map fun e => e.details ++ "\n")

/-- The counts on one line. -/
def countsLine (r : Report) : String :=
  toString r.stats.visited ++ " token(s) resolved, " ++ toString r.stats.changed ++
    " changed, " ++ toString r.stats.unresolved ++ " with warnings"

/-- The report as JSON, written at a second of the epoch that `date` spells out. -/
def toJson (r : Report) (seconds : Nat) (date : String) : Json :=
  let count (n : Nat) : Json := .number (.integer n)
  .object
    [ ("events", .array (r.events.map fun e => e.toJson seconds)),
      ("generated_at", .string date),
      ("summary", .object
        [ ("dropped", count r.diagnostics.dropped),
          ("errors", count r.summary.errors),
          ("warnings", count r.diagnostics.warningCount) ]),
      ("tokens", .object
        [ ("changed", count r.stats.changed),
          ("unresolved", count r.stats.unresolved),
          ("visited", count r.stats.visited) ]) ]

end Report

end DesignTokens
