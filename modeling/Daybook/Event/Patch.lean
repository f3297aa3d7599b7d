import Daybook.Event.Basic
import Daybook.Text.Blank

/-! Changes to a single property of an event. -/
namespace Daybook

inductive Patch where
  | name (value : String)
  | description (value : String)
  | location (value : String)
  | visibility (isPublic : Bool)
  deriving DecidableEq, Repr

namespace Patch

/-- The patch that sets a property, named in any case, to a value as written. Only the word true
makes an event public. -/
def read? (property value : String) : Option Patch :=
  match String.ofList (property.toList.map Char.toLower) with
  | "name" => some (.name value)
  | "description" => some (.description value)
  | "location" => some (.location value)
  | "public" => some (.visibility (sameIgnoringCase value "true"))
  | _ => none

def property : Patch → String
  | name _ => "name"
  | description _ => "description"
  | location _ => "location"
  | visibility _ => "public"

end Patch

def Event.apply (e : Event) : Patch → Event
  | .name value => { e with name := value }
  | .description value => { e with description := value }
  | .location value => { e with location := value }
  | .visibility value => { e with isPublic := value }

namespace Event

@[simp] theorem start_apply (e : Event) (p : Patch) : (e.apply p).start = e.start := by
  cases p <;> rfl

@[simp] theorem stop_apply (e : Event) (p : Patch) : (e.apply p).stop = e.stop := by
  cases p <;> rfl

@[simp] theorem allDay_apply (e : Event) (p : Patch) : (e.apply p).allDay = e.allDay := by
  cases p <;> rfl

@[simp] theorem apply_apply (e : Event) (p : Patch) : (e.apply p).apply p = e.apply p := by
  cases p <;> rfl

end Event
end Daybook
