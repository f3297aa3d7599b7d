import Daybook.Calendar.Written
import Daybook.Command.Basic

/-!
The canonical line of a command: keywords in lower case, single blanks between the clauses, and
the decline flag at the end.
-/
namespace Daybook

def Rule.words (last : Instant → String) (r : Rule) : List String :=
  Keyword.repeats.text :: r.weekdays.letters ::
    match r.ending with
    | .count n => [Keyword.for_.text, String.ofList (Decimal.digits n.val), Keyword.times.text]
    | .before bound => [Keyword.until_.text, last bound.second]

namespace Command

def lastDay (bound : Instant) : String := ((bound.addDays? (-1)).getD bound).date.text

def flagWords (autoDecline : Bool) : List String :=
  if autoDecline then [Keyword.autoDecline.text] else []

def verb : Command → Verb
  | createTimed .. => .createEvent
  | createAllDay .. => .createEvent
  | editSingle .. => .editEvent
  | editFrom .. => .editEvents
  | editNamed .. => .editEvents
  | queryOn .. => .printOn
  | queryRange .. => .printFrom
  | exportTo .plain _ => .exportCal
  | exportTo .google _ => .exportGoogle
  | showStatus .. => .showStatus

def clauses : Command → List String
  | createTimed name start stop rule autoDecline =>
    [name, Keyword.from_.text, start.literal, Keyword.to_.text, stop.literal] ++
      (rule.map (Rule.words Instant.literal)).getD [] ++ flagWords autoDecline
  | createAllDay name date rule autoDecline =>
    [name, Keyword.on_.text, date.text] ++ (rule.map (Rule.words lastDay)).getD [] ++
      flagWords autoDecline
  | editSingle property name start stop value =>
    [property, name, Keyword.from_.text, start.literal, Keyword.to_.text, stop.literal,
      Keyword.with_.text, value]
  | editFrom property name start value =>
    [property, name, Keyword.from_.text, start.literal, Keyword.with_.text, value]
  | editNamed property name value => [property, name, Keyword.with_.text, value]
  | queryOn date => [date.text]
  | queryRange start stop => [start.literal, Keyword.to_.text, stop.literal]
  | exportTo _ path => [path]
  | showStatus instant => [instant.literal]

def line (c : Command) : String := " ".intercalate (c.verb.text :: c.clauses)

end Command
end Daybook
