import Daybook.Calendar.Written

/-! Events: named half-open intervals of time, possibly a whole day. -/
namespace Daybook

/-- An event over the instants from `start` up to but not including `stop`. -/
structure Event where
  name : String
  start : Instant
  stop : Instant
  allDay : Bool
  description : String
  location : String
  isPublic : Bool
  start_lt_stop : start < stop
  deriving DecidableEq, Repr

inductive EventError where
  | emptyName
  | invalidInterval (start stop : Instant)
  deriving DecidableEq, Repr

def EventError.message : EventError → String
  | emptyName => "Event name must not be empty"
  | invalidInterval start stop =>
    "Invalid event interval: end " ++ stop.text ++ " is not after start " ++ start.text

namespace Event

def timed (name : String) (start stop : Instant) : Except EventError Event :=
  if name = "" then .error .emptyName
  else if h : start < stop then .ok ⟨name, start, stop, false, "", "", true, h⟩
  else .error (.invalidInterval start stop)

def onDay (name : String) (date : Date) : Except EventError Event :=
  let start := Instant.midnight date
  match start.addDays? 1 with
  | none => .error (.invalidInterval start start)
  | some stop => (timed name start stop).map fun e => { e with allDay := true }

def duration (e : Event) : Int := e.stop.number - e.start.number

theorem duration_pos (e : Event) : 0 < e.duration := by
  have := Instant.lt_def.1 e.start_lt_stop
  simp only [duration]; omega

def movedTo? (e : Event) (start : Instant) : Option Event :=
  match h : start.addSeconds? e.duration with
  | none => none
  | some stop => some { e with
      start := start, stop := stop, start_lt_stop := Instant.lt_of_addSeconds? h e.duration_pos }

def Overlaps (e f : Event) : Prop := e.start < f.stop ∧ f.start < e.stop

instance (e f : Event) : Decidable (e.Overlaps f) := inferInstanceAs (Decidable (_ ∧ _))

/-- Whether the event touches a date; an event of a whole day touches its own date only. -/
def OccursOn (e : Event) (d : Date) : Prop :=
  if e.allDay then e.start.date = d else e.start.date ≤ d ∧ d ≤ e.stop.date

instance (e : Event) (d : Date) : Decidable (e.OccursOn d) := by
  unfold OccursOn; infer_instance

def Covers (e : Event) (t : Instant) : Prop := e.start ≤ t ∧ t < e.stop

instance (e : Event) (t : Instant) : Decidable (e.Covers t) := inferInstanceAs (Decidable (_ ∧ _))

def text (e : Event) : String :=
  e.name ++
  (if e.allDay then " (All Day on " ++ e.start.date.text ++ ")"
    else " from " ++ e.start.spaced ++ " to " ++ e.stop.spaced) ++
  (if e.description = "" then "" else ", Description: " ++ e.description) ++
  (if e.location = "" then "" else ", Location: " ++ e.location) ++
  (if e.isPublic then ", Public" else ", Private")

theorem overlaps_comm {e f : Event} : e.Overlaps f ↔ f.Overlaps e := And.comm

theorem movedTo?_eq_some_iff {e f : Event} {start : Instant} :
    e.movedTo? start = some f ↔
      f.start = start ∧ start.addSeconds? e.duration = some f.stop ∧ f.name = e.name ∧
      f.allDay = e.allDay ∧ f.description = e.description ∧ f.location = e.location ∧
      f.isPublic = e.isPublic := by
  unfold movedTo?
  split
  · rename_i h; simp [h]
  · rename_i stop h
    obtain ⟨name, start', stop', allDay, description, location, isPublic, hlt⟩ := f
    simp only [Option.some.injEq, Event.mk.injEq, h]
    grind

end Event
end Daybook
