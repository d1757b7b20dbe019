import PropertyPath.Resolve.Observer

/-!
# Logging steps

An observer that turns each step into a log record. All records have the finest level, so a log that
takes any coarser level only stays empty.
-/

namespace PropertyPath

namespace Log

/-- Levels from the finest to the coarsest. -/
inductive Level where
  | trace
  | debug
  | info
  | warn
  | error
  deriving DecidableEq

/-- How coarse a level is. -/
def Level.rank : Level → Nat
  | trace => 0
  | debug => 1
  | info => 2
  | warn => 3
  | error => 4

/-- A log with this threshold takes records of a level. -/
def Level.takes (threshold level : Level) : Bool := threshold.rank ≤ level.rank

/-- A logged step. The target says which part of a program the record is from, and the name and the
kind are empty where the path has ended. -/
structure Record where
  target : String
  level : Level
  message : String
  index : Nat
  step : String
  name : String
  kind : String
  valueType : String
  deriving DecidableEq

/-- The record of a step. -/
def Record.ofEvent (event : Event Scalar) : Record where
  target := "propmap::resolve"
  level := .trace
  message := "resolving path segment"
  index := event.index
  step := event.step.name
  name := (event.segment.map Segment.name).getD ""
  kind := (event.segment.map fun s => s.kind.tag).getD ""
  valueType := Value.typeName event.value

end Log

/-- Logs every step in a log with a threshold. -/
def Observer.logger (threshold : Log.Level) : Observer Scalar (Array Log.Record) where
  onStep log event :=
    let record := Log.Record.ofEvent event
    if threshold.takes record.level then log.push record else log

end PropertyPath
