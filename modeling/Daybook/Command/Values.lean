import Daybook.Calendar.Literal
import Daybook.Command.Basic
import Daybook.Command.Outline

/-!
From outlines to commands: each literal clause is read as the value that its place asks for, in
the order of the tokens, so that the leftmost bad literal is the error.
-/
namespace Daybook
namespace Command

def readDate (literal : String) : Except ParseError Date :=
  (Date.read literal).mapError fun _ => .date literal

def readInstant (literal : String) : Except ParseError Instant :=
  (Instant.read .letter literal).mapError fun _ => .instant literal

def readWeekdays (letters : String) : Except ParseError WeekdaySet :=
  (WeekdaySet.read letters).mapError .weekday

def countDigits : List Char → List Char
  | '+' :: ds => ds
  | ds => ds

def count? (literal : String) : Option Count :=
  let ds := countDigits literal.toList
  if ds ≠ [] ∧ ds.all Char.isDigit then Count.ofNat? (Decimal.value ds) else none

def readCount (literal : String) : Except ParseError Count :=
  match count? literal with
  | some n => .ok n
  | none => .error (.count literal)

/-- The bound of an all-day recurrence: the midnight after the date, so that the date counts. -/
def readDayBound (literal : String) : Except ParseError Instant := do
  let date ← readDate literal
  match (Instant.midnight date).addDays? 1 with
  | some bound => return bound
  | none => throw (.date date.text)

def readRule (text : Span → String) (bound : String → Except ParseError Instant)
    (repeats : Repeats) : Except ParseError Rule := do
  let weekdays ← readWeekdays (text repeats.weekdays)
  match repeats.ending with
  | .count n => return ⟨weekdays, .count (← readCount (text n))⟩
  | .bound t => return ⟨weekdays, .before (← bound (text t))⟩

def readRule? (text : Span → String) (bound : String → Except ParseError Instant) :
    Option Repeats → Except ParseError (Option Rule)
  | none => .ok none
  | some repeats => (readRule text bound repeats).map some

def ofOutline (text : Span → String) (autoDecline : Bool) : Outline → Except ParseError Command
  | .createTimed name start stop repeats => do
    let start ← readInstant (text start)
    let stop ← readInstant (text stop)
    let rule ← readRule? text readInstant repeats
    return .createTimed (text name) start stop rule autoDecline
  | .createAllDay name date repeats => do
    let date ← readDate (text date)
    let rule ← readRule? text readDayBound repeats
    return .createAllDay (text name) date rule autoDecline
  | .editSingle property name start stop value => do
    let start ← readInstant (text start)
    let stop ← readInstant (text stop)
    return .editSingle (text property) (text name) start stop (text value)
  | .editMany property name (some start) value => do
    let start ← readInstant (text start)
    return .editFrom (text property) (text name) start (text value)
  | .editMany property name none value =>
    return .editNamed (text property) (text name) (text value)
  | .printOn date => return .queryOn (← readDate (text date))
  | .printRange start stop => do
    let start ← readInstant (text start)
    let stop ← readInstant (text stop)
    return .queryRange start stop
  | .exportTo dialect path => return .exportTo dialect (text path)
  | .showStatus instant => return .showStatus (← readInstant (text instant))

end Command
end Daybook
