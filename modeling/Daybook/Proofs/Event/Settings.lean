import Daybook.Command.Lexeme
import Daybook.Event.Patch

/-!
Patches as properties set to values. Main statement: a property and a value are read exactly as the
patch that sets the property, spelled in any case, to the value.
-/
namespace Daybook.Patch
variable {property value : String} {p : Patch}

def settings (value : String) : List Patch :=
  [.name value, .description value, .location value, .visibility (sameIgnoringCase value "true")]

theorem sameIgnoringCase_property :
    sameIgnoringCase property p.property = true ↔
      property.toList.map Char.toLower = p.property.toList := by
  have hlower : p.property.toList.map Char.toLower = p.property.toList := by
    cases p <;> simp only [Patch.property] <;> decide
  rw [sameIgnoringCase, hlower, beq_iff_eq]

theorem read?_eq_some_iff :
    read? property value = some p ↔
      p ∈ settings value ∧ sameIgnoringCase property p.property = true := by
  have hword : sameIgnoringCase property p.property = true ↔
      String.ofList (property.toList.map Char.toLower) = p.property := by
    rw [sameIgnoringCase_property, ← String.toList_inj, String.toList_ofList]
  rw [hword, read?]
  generalize String.ofList (property.toList.map Char.toLower) = word
  constructor
  · intro h
    split at h <;> cases h <;> simp [settings, Patch.property]
  · rintro ⟨hmem, rfl⟩
    simp only [settings, List.mem_cons, List.not_mem_nil, or_false] at hmem
    obtain rfl | rfl | rfl | rfl := hmem <;> rfl

theorem toLower_of_isSeparator {c : Char} (h : isSeparator c = true) : c.toLower = c := by
  simp only [isSeparator, Bool.or_eq_true, beq_iff_eq] at h
  rcases h with (((rfl | rfl) | rfl) | rfl) | rfl <;> rfl

theorem word_of_property (h : sameIgnoringCase property p.property = true) :
    property.toList ≠ [] ∧ ∀ c ∈ property.toList, isSeparator c = false := by
  have hlower := sameIgnoringCase_property.1 h
  have hproperty : p.property.toList ≠ [] ∧ p.property.toList.all (!isSeparator ·) = true := by
    cases p <;> simp only [Patch.property] <;> decide
  refine ⟨fun hnil => hproperty.1 ?_, fun c hc => ?_⟩
  · rw [← hlower, hnil]
    rfl
  · cases hsep : isSeparator c with
    | false => rfl
    | true =>
      have hunbroken := List.all_eq_true.1 hproperty.2 c.toLower (hlower ▸ List.mem_map_of_mem hc)
      rw [toLower_of_isSeparator hsep, hsep] at hunbroken
      cases hunbroken

end Daybook.Patch

namespace Daybook.Event
variable {e : Event} {p q : Patch}

def properties (e : Event) : List Patch :=
  [.name e.name, .description e.description, .location e.location, .visibility e.isPublic]

theorem properties_apply (e : Event) (p : Patch) :
    (e.apply p).properties = e.properties.map fun q => if q.property = p.property then p else q := by
  cases p <;> simp [apply, properties, Patch.property]

theorem name_apply (h : p.property ≠ "name") : (e.apply p).name = e.name := by
  cases p with
  | name => exact absurd rfl h
  | description | location | visibility => rfl

/-- Patches of two properties do not disturb each other. -/
theorem apply_comm (h : p.property ≠ q.property) :
    (e.apply p).apply q = (e.apply q).apply p := by
  cases p <;> cases q <;> first | rfl | exact absurd rfl h

end Daybook.Event
