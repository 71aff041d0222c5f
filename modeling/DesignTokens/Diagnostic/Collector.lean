import DesignTokens.Diagnostic.Trace

/-!
# Collecting diagnostics

A collector keeps the diagnostics of one resolution. An event without a path of its own gets the path
of the token being resolved. An event that reports the same diagnostic as one already kept is only
counted under its code; any other is kept, or dropped and counted once `limit` events are kept. The
counters go on past the limit.

A step may also be something for the log: a diagnostic that was no repetition, when the collector
forwards them, or an event noted for the log alone.
-/

namespace DesignTokens

/-- The diagnostics raised so far. -/
structure Collector where
  /-- The events kept, in the order they were raised. -/
  kept : Array Event
  /-- The path of the token being resolved. -/
  path : Option String
  /-- How many events came when `limit` were kept. -/
  dropped : Nat
  /-- How many warnings there were that did not repeat a kept event. -/
  warningCount : Nat
  /-- How often each code was raised, repetitions included. -/
  counts : KeyedList Nat
  /-- Whether diagnostics go to the log as well. -/
  forwards : Bool

namespace Collector

/-- How many events a collector keeps. -/
def limit : Nat := 5000

/-- A collector that keeps its diagnostics to itself. -/
def silent : Collector := ⟨#[], none, 0, 0, [], false⟩

/-- A collector whose diagnostics also go to the log. -/
def forwarding : Collector := { silent with forwards := true }

/-- The events kept, in the order they were raised. -/
def events (c : Collector) : List Event := c.kept.toList

/-- The resolution of the token at a path begins. -/
def enter (c : Collector) (path : String) : Collector := { c with path := some path }

/-- The resolution of the token ends. -/
def leave (c : Collector) : Collector := { c with path := none }

/-- The event with its own path, or else the path of the token being resolved. -/
def tag (c : Collector) (e : Event) : Event := { e with path := e.path <|> c.path }

/-- Whether an event reports a diagnostic that is already kept. -/
def repeats (c : Collector) (e : Event) : Bool := c.kept.any (·.sameDiagnostic e)

/-- How often events with a code were raised, repetitions included. -/
def count (c : Collector) (code : Code) : Nat := (KeyedList.get? c.counts code.text).getD 0

/-- Keeps an event that repeats none, or drops it past the limit. -/
def keep (c : Collector) (e : Event) : Collector :=
  let c := if e.isWarning then { c with warningCount := c.warningCount + 1 } else c
  if c.kept.size < limit then { c with kept := c.kept.push e }
  else { c with dropped := c.dropped + 1 }

/-- Takes a diagnostic in, and answers with the event for the log, if there is one. -/
def record (c : Collector) (e : Event) : Collector × Option Event :=
  let e := c.tag e
  let seen := c.repeats e
  let c := { c with counts := KeyedList.insert c.counts e.code.text (c.count e.code + 1) }
  if seen then (c, none) else (c.keep e, if c.forwards then some e else none)

/-- Takes one step in, and answers with the event for the log, if there is one. -/
def observe (c : Collector) : Step → Collector × Option Event
  | .entered path => (c.enter path, none)
  | .left => (c.leave, none)
  | .raised event => c.record event
  | .noted event => (c, some event)
  | _ => (c, none)

/-- The warnings among the kept events. -/
def warnings (c : Collector) : List Event := c.events.filter (·.isWarning)

def hasWarnings (c : Collector) : Bool := !c.warnings.isEmpty

def summary (c : Collector) : EventSummary := .ofEvents c.events

/-- The group of the events that belong to no token. -/
def valueGroup : String := "<value>"

/-- The group of an event: the path of its token. -/
def group (e : Event) : String := e.path.getD valueGroup

/-- The kept events by the path of their token, in the order of the paths. -/
def byToken (c : Collector) : KeyedList (List Event) :=
  let paths := KeyedList.ofList (c.events.map fun e => (group e, ()))
  paths.map fun (path, _) => (path, c.events.filter fun e => group e == path)

/-- A warning or error with its token and context, over several lines. -/
def paragraph (path : String) (e : Event) : String :=
  (if e.isError then "error" else "warning") ++ "[" ++ e.code.text ++ "]: " ++ e.message ++ "\n" ++
    "  --> " ++ path ++ "\n" ++
    String.join (e.context.map fun (key, value) => "   = " ++ key ++ ": " ++ value ++ "\n") ++ "\n"

/-- The warnings and errors by token, and a line with their counts unless there are none. -/
def report (c : Collector) : String :=
  let paragraphs := c.byToken.flatMap fun (path, events) =>
    (events.filter fun e => e.isWarning || e.isError).map (paragraph path)
  let summary := c.summary
  let total :=
    if summary.hasWarnings || summary.hasErrors then
      "resolution finished with " ++ toString summary.warnings ++ " warning(s), " ++
        toString summary.errors ++ " error(s)" ++
        (if 0 < c.dropped then " (" ++ toString c.dropped ++ " more not shown)" else "") ++ "\n"
    else ""
  String.join paragraphs ++ total

end Collector

end DesignTokens
