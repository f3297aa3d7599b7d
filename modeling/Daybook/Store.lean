import Daybook.Bisection
import Daybook.Event.Patch

/-! The events of a calendar in order of their starts; equal starts keep the order of insertion. -/
namespace Daybook

inductive Policy where
  | warn
  | reject
  deriving DecidableEq, Repr

structure Store where
  events : List Event
  deriving DecidableEq, Repr

namespace Store

def empty : Store := ⟨[]⟩

/-- Where a new event goes: after every event that does not start later. -/
def position (s : Store) (e : Event) : Nat :=
  partitionPoint (fun f => decide (f.start ≤ e.start)) s.events.length s.events

def add (s : Store) (e : Event) : Store :=
  let at_ := s.position e
  ⟨s.events.take at_ ++ e :: s.events.drop at_⟩

def overlapping (s : Store) (e : Event) : List Event :=
  s.events.filter fun f => decide (f.Overlaps e)

/-- Adds an event. Rejecting, the name of the first overlapping event is the error; else the
names of all of them are returned. -/
def insert (s : Store) (e : Event) (policy : Policy) : Except String (Store × List String) :=
  match policy, s.overlapping e with
  | .reject, f :: _ => .error f.name
  | _, conflicts => .ok (s.add e, conflicts.map Event.name)

def eventsOn (s : Store) (d : Date) : List Event :=
  s.events.filter fun e => decide (e.OccursOn d)

def eventsBetween (s : Store) (start stop : Instant) : List Event :=
  s.events.filter fun e => decide (e.start < stop ∧ start < e.stop)

def isBusy (s : Store) (t : Instant) : Bool :=
  s.events.any fun e => decide (e.Covers t)

def editAll (s : Store) (matching : Event → Bool) (p : Patch) : Store × Nat :=
  (⟨s.events.map fun e => if matching e then e.apply p else e⟩, s.events.countP matching)

def editNamed (s : Store) (name : String) (p : Patch) : Store × Nat :=
  s.editAll (fun e => e.name == name) p

def editFrom (s : Store) (name : String) (start : Instant) (p : Patch) : Store × Nat :=
  s.editAll (fun e => e.name == name && decide (start ≤ e.start)) p

def editFirst (matching : Event → Bool) (p : Patch) : List Event → List Event
  | [] => []
  | e :: es => if matching e then e.apply p :: es else e :: editFirst matching p es

def editOne (s : Store) (name : String) (start stop : Instant) (p : Patch) : Store × Bool :=
  let matching := fun e : Event => e.name == name && e.start == start && e.stop == stop
  (⟨editFirst matching p s.events⟩, s.events.any matching)

end Store
end Daybook
