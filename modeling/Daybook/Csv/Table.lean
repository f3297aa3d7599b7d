import Daybook.Calendar.Literal
import Daybook.Csv.Dialect
import Daybook.Fault
import Daybook.Text.Bytes

/-! Reading a table of events back. -/
namespace Daybook.Csv

inductive RowError where
  | header
  | fields (cause : FieldError)
  | fieldCount (found : Nat)
  | timestamp (field : String) (cause : LiteralError)
  | boolean (field : String)
  | event (cause : EventError)
  deriving DecidableEq, Repr

def RowError.message : RowError → String
  | header => "expected header `" ++ Dialect.plain.header ++ "`"
  | fields cause => cause.message
  | fieldCount found => "expected 7 fields, found " ++ toString found
  | timestamp field cause => "invalid timestamp `" ++ field ++ "`: " ++ cause.message
  | boolean field => "invalid boolean `" ++ field ++ "`"
  | event cause => cause.message

inductive TableError where
  | badRow (line : Nat) (cause : RowError)
  | unreadable (cause : Fault)
  deriving DecidableEq, Repr

def TableError.message : TableError → String
  | badRow line cause => "Invalid CSV at line " ++ toString line ++ ": " ++ cause.message
  | unreadable cause => "Failed to write output: " ++ cause.message

def readTimestamp (field : String) : Except RowError Instant :=
  (Instant.read .blanks field).mapError (.timestamp field)

def readBoolean (field : String) : Except RowError Bool :=
  match field with
  | "true" => .ok true
  | "false" => .ok false
  | _ => .error (.boolean field)

/-- Reads one event. The stop of an all-day event is read but not used. -/
def readRow (line : String) : Except RowError Event := do
  match ← (splitFields line).mapError .fields with
  | [name, start, stop, allDay, description, location, isPublic] =>
    let start ← readTimestamp start
    let stop ← readTimestamp stop
    let event ← (if ← readBoolean allDay then Event.onDay name start.date
      else Event.timed name start stop).mapError .event
    let isPublic ← readBoolean isPublic
    return { event with description := description, location := location, isPublic := isPublic }
  | other => throw (.fieldCount other.length)

def readRows : Nat → List (Option String) → Except TableError (List Event)
  | _, [] => .ok []
  | _, none :: _ => .error (.unreadable .notUtf8)
  | n, some line :: rest =>
    if (line.toList.all isBlank) then readRows (n + 1) rest
    else do
      let event ← (readRow line).mapError (.badRow n)
      let events ← readRows (n + 1) rest
      return event :: events

def readLines : List (Option String) → Except TableError (List Event)
  | [] => .ok []
  | none :: _ => .error (.unreadable .notUtf8)
  | some line :: rest =>
    if trimEnd line.toList = Dialect.plain.header.toList then readRows 2 rest
    else .error (.badRow 1 .header)

def read (bytes : Bytes) : Except TableError (List Event) := readLines bytes.lines

end Daybook.Csv
