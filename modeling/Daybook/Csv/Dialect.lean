import Daybook.Csv.Fields
import Daybook.Event.Basic

/-! Tables of events in two dialects of comma-separated text. -/
namespace Daybook.Csv

inductive Dialect where
  | plain
  | google
  deriving DecidableEq, Repr

namespace Dialect

def title : Dialect → String
  | plain => "CSV"
  | google => "Google CSV"

def header : Dialect → String
  | plain => "EventName,Start,End,AllDay,Description,Location,Public"
  | google =>
    "Subject,Start Date,Start Time,End Date,End Time,All Day Event,Description,Location,Private"

def columns : Dialect → Event → List String
  | plain, e =>
    [quote e.name, e.start.spaced, e.stop.spaced, if e.allDay then "true" else "false",
      quote e.description, quote e.location, if e.isPublic then "true" else "false"]
  | google, e =>
    [quote e.name, e.start.date.slashed, if e.allDay then "" else e.start.clock,
      if e.allDay then e.start.date.slashed else e.stop.date.slashed,
      if e.allDay then "" else e.stop.clock, if e.allDay then "True" else "False",
      quote e.description, quote e.location, if e.isPublic then "False" else "True"]

def row (dialect : Dialect) (e : Event) : String := ",".intercalate (dialect.columns e)

def table (dialect : Dialect) (events : List Event) : String :=
  String.join ((dialect.header :: events.map dialect.row).map (· ++ "\n"))

end Dialect
end Daybook.Csv
