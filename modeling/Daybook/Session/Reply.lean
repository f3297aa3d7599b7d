import Daybook.Command.Basic
import Daybook.Files.Contents
import Daybook.Store

/-!
Replies: what a command does to a calendar as a list of steps, and what comes of it if every step
can be taken. Changes to the store stand before the lines that report them.
-/
namespace Daybook

inductive Error where
  | parse (cause : ParseError)
  | event (cause : EventError)
  | conflict (name : String)
  | exporting (path : String) (cause : Fault)
  | output (cause : Fault)
  deriving DecidableEq, Repr

def Error.message : Error → String
  | parse cause => cause.message
  | event cause => cause.message
  | conflict name => "Conflict detected with event: " ++ name
  | exporting path cause => "Failed to export to " ++ path ++ ": " ++ cause.message
  | output cause => "Failed to write output: " ++ cause.message

inductive Outcome where
  | created (occurrences : Nat) (conflicts : List String)
  | updated (count : Nat)
  | events (found : List Event)
  | status (busy : Bool)
  | exported (path : String)
  deriving DecidableEq, Repr

inductive Step where
  | keep (store : Store)
  | add (event : Event)
  | save (path : String) (content : String)
  | print (text : String)
  deriving DecidableEq, Repr

def Step.say (line : String) : Step := .print (line ++ "\n")

structure Reply where
  steps : List Step
  result : Except Error Outcome

structure Insertion where
  store : Store
  steps : Array Step
  conflicts : Array String
  count : Nat

namespace Insertion

def start (store : Store) : Insertion := ⟨store, #[], #[], 0⟩

def warning (name : String) : Step := .say ("Warning: Event conflicts with " ++ name)

/-- Adds one more event, with a warning for every event it overlaps. If it is declined, this is the
end, and the events before it stay. -/
def add (policy : Policy) (i : Insertion) (e : Event) : Except Reply Insertion :=
  match i.store.insert e policy with
  | .error name => .error ⟨i.steps.toList, .error (.conflict name)⟩
  | .ok (store, names) =>
    .ok ⟨store, i.steps.push (.add e) ++ names.map warning, i.conflicts ++ names, i.count + 1⟩

def reply (i : Insertion) (line : String) : Reply :=
  ⟨i.steps.toList ++ [.say line], .ok (.created i.count i.conflicts.toList)⟩

end Insertion

namespace Reply

def error (e : Error) : Reply := ⟨[], .error e⟩

def create (policy : Policy) (store : Store) (template : Event) : Option Rule → Reply
  | none =>
    match (Insertion.start store).add policy template with
    | .error declined => declined
    | .ok i =>
      i.reply ((if template.allDay then "All-day event created: " else "Event created: ") ++
        template.text)
  | some rule =>
    match rule.foldOccurrences (Insertion.add policy) (Insertion.start store) template with
    | .error declined => declined
    | .ok i =>
      i.reply ((if template.allDay then "Recurring all-day event created with "
        else "Recurring event created with ") ++ toString i.count ++ " occurrences.")

def effective (policy : Policy) (autoDecline : Bool) : Policy :=
  if autoDecline then .reject else policy

def editMany (store : Store) (patch : Option Patch) (edit : Patch → Store × Nat)
    (tail : String) : Reply :=
  let (store, count) := (patch.map edit).getD (store, 0)
  ⟨[.keep store, .say (toString count ++ " event(s) updated " ++ tail)], .ok (.updated count)⟩

/-- The reply with everything printed that it would save to the output. -/
def redirected (files : Files) (r : Reply) : Reply :=
  { r with steps := r.steps.map fun
      | .save path content => if files.isOutput path then .print content else .save path content
      | step => step }

def list (events : List Event) (none_ some_ : String) : Reply :=
  let lines := if events.isEmpty then [none_] else some_ :: events.map (" - " ++ ·.text)
  ⟨lines.map .say, .ok (.events events)⟩

end Reply

open Reply in
def Command.reply (policy : Policy) (here : String) (store : Store) : Command → Reply
  | .createTimed name start stop rule autoDecline =>
    match Event.timed name start stop with
    | .error e => Reply.error (.event e)
    | .ok template => create (effective policy autoDecline) store template rule
  | .createAllDay name date rule autoDecline =>
    match Event.onDay name date with
    | .error e => Reply.error (.event e)
    | .ok template => create (effective policy autoDecline) store template rule
  | .editSingle property name start stop value =>
    let (store, found) :=
      ((Patch.read? property value).map (store.editOne name start stop)).getD (store, false)
    let line := if found then "Event updated successfully." else "Event not found or update failed."
    ⟨[.keep store, .say line], .ok (.updated found.toNat)⟩
  | .editFrom property name start value =>
    editMany store (Patch.read? property value) (store.editFrom name start)
      ("starting from " ++ start.literal)
  | .editNamed property name value =>
    editMany store (Patch.read? property value) (store.editNamed name) ("with new " ++ property)
  | .queryOn date =>
    list (store.eventsOn date) ("No events found on " ++ date.text)
      ("Events on " ++ date.text ++ ":")
  | .queryRange start stop =>
    let range := start.literal ++ " and " ++ stop.literal
    list (store.eventsBetween start stop) ("No events found between " ++ range)
      ("Events between " ++ range ++ ":")
  | .exportTo dialect path =>
    let target := absolutePath here path
    ⟨[.save path (dialect.table store.events),
      .say ("Exported to " ++ dialect.title ++ ": " ++ target)], .ok (.exported target)⟩
  | .showStatus instant =>
    let busy := store.isBusy instant
    ⟨[.say ("Status at " ++ instant.literal ++ ": " ++ if busy then "Busy" else "Available")],
      .ok (.status busy)⟩

end Daybook
