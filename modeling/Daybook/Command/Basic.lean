import Daybook.Command.Reading
import Daybook.Command.Verb
import Daybook.Csv.Dialect
import Daybook.Recurrence

/-! Commands with their values, and why a line is no command. -/
namespace Daybook

inductive Command where
  | createTimed (name : String) (start stop : Instant) (recurrence : Option Rule)
      (autoDecline : Bool)
  | createAllDay (name : String) (date : Date) (recurrence : Option Rule) (autoDecline : Bool)
  | editSingle (property name : String) (start stop : Instant) (value : String)
  | editFrom (property name : String) (start : Instant) (value : String)
  | editNamed (property name value : String)
  | queryOn (date : Date)
  | queryRange (start stop : Instant)
  | exportTo (dialect : Csv.Dialect) (path : String)
  | showStatus (instant : Instant)
  deriving DecidableEq, Repr

inductive ParseError where
  | unrecognized (line : String)
  | misfit (verb : Verb) (cause : Misfit)
  | date (literal : String)
  | instant (literal : String)
  | weekday (character : Char)
  | count (literal : String)
  deriving DecidableEq, Repr

def ParseError.message : ParseError → String
  | unrecognized line => "Invalid command: " ++ line
  | misfit verb cause => "Invalid " ++ verb.text ++ " command: " ++ cause.message
  | date literal => "Invalid date: " ++ literal
  | instant literal => "Invalid date-time: " ++ literal
  | weekday character => "Invalid weekday character: " ++ character.toString
  | count literal => "Invalid occurrence count: " ++ literal

end Daybook
