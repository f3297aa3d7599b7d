import Daybook.Proofs.Command.Texts
import Daybook.Proofs.Event.WellFormed
import Daybook.Proofs.Session.Lines

/-!
Where the characters of events come from. Main statement: lines lead to no event with a character
that stands in none of them.
-/
namespace Daybook
variable {A : Char → Prop}

namespace Event
variable {e template : Event} {name property value : String} {p : Patch}

def Spelled (A : Char → Prop) (e : Event) : Prop :=
  ∀ text ∈ [e.name, e.description, e.location], ∀ c ∈ text.toList, A c

theorem spelled_iff : e.Spelled A ↔ (∀ c ∈ e.name.toList, A c) ∧
    (∀ c ∈ e.description.toList, A c) ∧ ∀ c ∈ e.location.toList, A c := by
  simp [Spelled]

theorem spelled_of_timed {start stop : Instant} (h : timed name start stop = .ok e)
    (hname : ∀ c ∈ name.toList, A c) : e.Spelled A := by
  rw [timed] at h
  split at h
  · cases h
  · split at h
    · cases h
      simpa [spelled_iff] using hname
    · cases h

theorem spelled_of_onDay {date : Date} (h : onDay name date = .ok e)
    (hname : ∀ c ∈ name.toList, A c) : e.Spelled A := by
  rw [onDay] at h
  split at h
  · cases h
  · obtain ⟨f, hmade, rfl⟩ := map_eq_ok_iff.1 h
    have hspelled : f.Spelled A := spelled_of_timed hmade hname
    exact hspelled

theorem Spelled.of_mem_occurrences {rule : Option Rule} (h : template.Spelled A)
    (he : e ∈ template.occurrences rule) : e.Spelled A := by
  obtain ⟨hname, hdescription, hlocation⟩ := texts_of_mem_occurrences he
  rw [spelled_iff, hname, hdescription, hlocation]
  exact spelled_iff.1 h

theorem Spelled.apply (h : e.Spelled A) (hread : Patch.read? property value = some p)
    (hvalue : ∀ c ∈ value.toList, A c) : (e.apply p).Spelled A := by
  obtain ⟨hname, hdescription, hlocation⟩ := spelled_iff.1 h
  rw [Patch.read?] at hread
  split at hread
  · cases hread
    exact spelled_iff.2 ⟨hvalue, hdescription, hlocation⟩
  · cases hread
    exact spelled_iff.2 ⟨hname, hvalue, hlocation⟩
  · cases hread
    exact spelled_iff.2 ⟨hname, hdescription, hvalue⟩
  · cases hread
    exact h
  · cases hread

end Event

namespace Command
open Store (Operation)
variable {c : Command}

def Spelled (A : Char → Prop) (c : Command) : Prop := ∀ text ∈ c.texts, ∀ a ∈ text.toList, A a

theorem spelled_of_parse {line : String} (hc : parse line = .ok c) (h : ∀ a ∈ line.toList, A a) :
    c.Spelled A :=
  fun _ htext _ ha => h _ (mem_line_of_mem_texts hc htext ha)

theorem Spelled.template (h : c.Spelled A) {template : Event} {rule : Option Rule}
    {declines : Bool} (htemplate : c.template? = some (.ok template, rule, declines)) :
    template.Spelled A := by
  obtain ⟨name, start, stop, rfl, hmade⟩ | ⟨name, date, rfl, hmade⟩ := cases_of_template htemplate
  · exact Event.spelled_of_timed hmade (h name List.mem_cons_self)
  · exact Event.spelled_of_onDay hmade (h name List.mem_cons_self)

theorem Spelled.keeps_of_edit (h : c.Spelled A) {op : Operation} (hedit : c.edit? = some op) :
    op.Keeps (Event.Spelled A) := by
  cases c with
  | editSingle property name _ _ value | editFrom property name _ value
  | editNamed property name value =>
    have hvalue : value ∈ [property, name, value] := by simp
    obtain ⟨p, hread, rfl⟩ := Option.map_eq_some_iff.1 hedit
    exact fun e he => he.apply hread (h value hvalue)
  | _ => cases hedit

/-- Step: a command leads to no event with characters of another kind. -/
theorem Spelled.keeps (h : c.Spelled A) : c.Keeps (Event.Spelled A) := by
  intro policy op hop
  obtain ⟨template, rule, declines, htemplate, e, he, rfl⟩ | hedit := cases_of_mem_operations hop
  · exact (h.template htemplate).of_mem_occurrences he
  · exact h.keeps_of_edit hedit

end Command

namespace Session
variable {lines : List String}

/-- A character of an event stands in one of the lines that led to it. -/
theorem exists_line_of_mem_text (policy : Policy) (sink : Sink) (files : Files) {e : Event}
    (he : e ∈ ((start policy sink files).executeAll lines).store.events) :
    e.Spelled fun a => ∃ line ∈ lines, a ∈ line.toList := by
  refine forall_mem_executeAll (fun line hline c hc => ?_) (by simp [start, Store.empty]) e he
  exact (Command.spelled_of_parse hc fun a ha => ⟨line, hline, ha⟩).keeps

end Session
end Daybook
