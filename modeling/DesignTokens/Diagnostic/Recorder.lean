import DesignTokens.Diagnostic.Collector
import DesignTokens.Diagnostic.Log

/-!
# Recorders

A recorder is what diagnostics go to while a program runs: the collector of the resolution, and the
log of the process, if one is installed. It takes the steps of a resolution in one by one, so it can
be shared by one resolution after another.
-/

namespace DesignTokens

/-- A collector and the log behind it. -/
structure Recorder where
  collector : Collector
  /-- The level of the log, if one is installed. -/
  level : Option Level
  /-- What the log has taken, in order. -/
  log : Array Event

namespace Recorder

/-- A recorder of a new resolution, with a log of a level or none. -/
def start (level : Option Level) : Recorder := ⟨.forwarding, level, #[]⟩

/-- Sends an event to the log; a log takes the events up to its level. -/
def send (r : Recorder) (e : Event) : Recorder :=
  match r.level with
  | some least => if Log.takes least e.level then { r with log := r.log.push e } else r
  | none => r

/-- Takes one step in. -/
def observe (r : Recorder) (t : Step) : Recorder :=
  let (collector, sent) := r.collector.observe t
  let r := { r with collector := collector }
  match sent with
  | some e => r.send e
  | none => r

instance : Observer Recorder := ⟨observe⟩

end Recorder

end DesignTokens
