import Daybook.Calendar.Instant
import Daybook.Text.Decimal

/-! The written forms of dates and instants. -/
namespace Daybook
open Decimal

def Civil.yearChars (year : Int) : List Char :=
  if year < 0 then '-' :: padded 4 year.natAbs
  else if 9999 < year then '+' :: padded 4 year.natAbs
  else padded 4 year.natAbs

namespace Date

def chars (d : Date) : List Char :=
  Civil.yearChars d.civil.year ++ '-' :: padded 2 d.civil.month ++ '-' :: padded 2 d.civil.day

def text (d : Date) : String := String.ofList d.chars

def slashed (d : Date) : String :=
  String.ofList (padded 2 d.civil.month ++ '/' :: padded 2 d.civil.day ++ '/' ::
    Civil.yearChars d.civil.year)

end Date

namespace Instant

def minuteChars (mark : Char) (t : Instant) : List Char :=
  t.date.chars ++ mark :: padded 2 t.hour ++ ':' :: padded 2 t.minute

def literal (t : Instant) : String := String.ofList (t.minuteChars 'T')

def spaced (t : Instant) : String := String.ofList (t.minuteChars ' ')

def text (t : Instant) : String :=
  String.ofList (t.minuteChars ' ' ++ ':' :: padded 2 t.secondOfMinute)

def clock (t : Instant) : String :=
  let hour := if t.hour % 12 = 0 then 12 else t.hour % 12
  String.ofList (padded 2 hour ++ ':' :: padded 2 t.minute ++ ' ' ::
    [if t.hour < 12 then 'A' else 'P', 'M'])

end Instant
end Daybook
