import Daybook.Command.Reading
import Daybook.Command.Verb
import Daybook.Csv.Dialect

/-!
Outlines of commands: where each clause sits in the tokens after the verb. A create command with
a time after its first from is timed; only failing that is it an all-day event.
-/
namespace Daybook

inductive RepeatsEnding where
  | count (n : Span)
  | bound (t : Span)
  deriving DecidableEq, Repr

structure Repeats where
  weekdays : Span
  ending : RepeatsEnding
  deriving DecidableEq, Repr

inductive Outline where
  | createTimed (name start stop : Span) (repeats : Option Repeats)
  | createAllDay (name date : Span) (repeats : Option Repeats)
  | editSingle (property name start stop value : Span)
  | editMany (property name : Span) (start : Option Span) (value : Span)
  | printOn (date : Span)
  | printRange (start stop : Span)
  | exportTo (dialect : Csv.Dialect) (path : Span)
  | showStatus (instant : Span)
  deriving DecidableEq, Repr

namespace Outline
open Reading

def repeatsClause : Reading Repeats := do
  keyword .repeats
  let weekdays ← single .weekdays
  let ending ← orElse
    (do
      keyword .for_
      let n ← single .literal
      keyword .times
      return .count n)
    (do
      keyword .until_
      let t ← single .literal
      return .bound t)
  return ⟨weekdays, ending⟩

def timed : Reading Outline := do
  let name ← nameUntil [.from_]
  keyword .from_
  let start ← single .literal
  keyword .to_
  let stop ← single .literal
  let repeats ← optional repeatsClause
  return .createTimed name start stop repeats

def allDay : Reading Outline := do
  let name ← nameUntil [.on_]
  keyword .on_
  let date ← single .literal
  let repeats ← optional repeatsClause
  return .createAllDay name date repeats

def create : Reading Outline := do
  let outline ← orElse timed allDay
  finish
  return outline

def singleEdit : Reading Outline := do
  let property ← single .property
  let name ← nameUntil [.from_, .with_]
  keyword .from_
  let start ← single .literal
  keyword .to_
  let stop ← single .literal
  keyword .with_
  let value ← rest .value
  return .editSingle property name start stop value

def pluralEdit : Reading Outline := do
  let property ← single .property
  let name ← nameUntil [.from_, .with_]
  let start ← optional (do keyword .from_; single .literal)
  keyword .with_
  let value ← rest .value
  return .editMany property name start value

/-- The reading of the tokens after a verb. The path of an export is one token; what follows it
is passed over. -/
def reading : Verb → Reading Outline
  | .createEvent => create
  | .editEvent => singleEdit
  | .editEvents => pluralEdit
  | .printOn => do
    let date ← single .literal
    finish
    return .printOn date
  | .printFrom => do
    let start ← single .literal
    keyword .to_
    let stop ← single .literal
    finish
    return .printRange start stop
  | .exportCal => do
    let path ← single .anything
    return .exportTo .plain path
  | .exportGoogle => do
    let path ← single .anything
    return .exportTo .google path
  | .showStatus => do
    let instant ← single .literal
    finish
    return .showStatus instant

def read (verb : Verb) (body : List Token) : Except Misfit Outline := (reading verb).run body

end Outline
end Daybook
