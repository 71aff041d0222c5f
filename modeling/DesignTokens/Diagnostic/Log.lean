import DesignTokens.Diagnostic.Event

/-!
# The log

A log takes the events up to its level. `Log.Memory` keeps the newest of them, at most `capacity`
many, and forgets the oldest first.
-/

namespace DesignTokens.Log

/-- Whether a log of level `least` takes events of a level. -/
def takes (least level : Level) : Bool := level.rank ≤ least.rank

/-- The events that a log of level `least` takes. -/
def accepted (least : Level) (events : List Event) : List Event :=
  events.filter fun e => takes least e.level

/-- How many events a log in memory holds. -/
def capacity : Nat := 10000

/-- A log in memory. -/
structure Memory where
  least : Level
  /-- The events held, the oldest first. -/
  held : Array Event

namespace Memory

/-- A log without events. -/
def empty (least : Level) : Memory := ⟨least, #[]⟩

/-- The events held, the oldest first. -/
def events (m : Memory) : List Event := m.held.toList

/-- Takes an event in; the oldest one makes room when the log is full. -/
def log (m : Memory) (e : Event) : Memory :=
  if takes m.least e.level then
    let held :=
      if capacity ≤ m.held.size then m.held.extract (m.held.size - capacity + 1) m.held.size
      else m.held
    { m with held := held.push e }
  else m

/-- Logs a warning without context. -/
def warn (m : Memory) (code : Code) (message : String) : Memory := m.log (.warning code message)

/-- Logs the success of an operation. -/
def succeed (m : Memory) (code : Code) (message : String) : Memory := m.log (.success code message)

/-- Forgets every event. -/
def clear (m : Memory) : Memory := { m with held := #[] }

def warnings (m : Memory) : List Event := m.events.filter (·.isWarning)

def withCode (m : Memory) (code : Code) : List Event := m.events.filter (·.code == code)

def summary (m : Memory) : EventSummary := .ofEvents m.events

end Memory

end DesignTokens.Log
