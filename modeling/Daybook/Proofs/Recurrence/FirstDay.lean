import Daybook.Proofs.Recurrence.Series
import Daybook.Proofs.Recurrence.Until

/-!
The first day of an expansion. Main statement: on a day of the set the template is its own first
occurrence, except on the last date of the calendar, to which no walk over the days comes.
-/
namespace Daybook

theorem Event.movedTo?_start (e : Event) : e.movedTo? e.start = some e := by
  have hstop : e.start.addSeconds? e.duration = some e.stop := by
    rw [Instant.addSeconds?_eq_some_iff, Event.duration]
    omega
  exact Event.movedTo?_eq_some_iff.2 ⟨rfl, hstop, rfl, rfl, rfl, rfl, rfl⟩

namespace Rule
variable {template : Event} {weekdays : WeekdaySet} {rule : Rule}

theorem later?_zero (template : Event) : later? template 0 = some template := by
  have hstart : template.start.addDays? (0 : Nat) = some template.start := by
    rw [Instant.addDays?, Instant.addSeconds?_eq_some_iff]
    omega
  rw [later?, hstart, Option.bind_some, Event.movedTo?_start]

theorem daysLeft_eq_zero_iff : daysLeft template = 0 ↔ template.start.date = Date.last := by
  have hleft := daysLeft_eq template
  constructor
  · intro h
    exact Date.ext (by omega)
  · intro h
    rw [h] at hleft
    omega

theorem series_of_date_eq_last (h : template.start.date = Date.last) (weekdays : WeekdaySet) :
    series template weekdays = [] := by
  rw [series, daysLeft_eq_zero_iff.2 h, walk]

theorem head?_offsets (hday : template.start.weekday ∈ weekdays)
    (hdate : template.start.date ≠ Date.last) : (offsets template weekdays).head? = some 0 := by
  obtain ⟨days, hdays⟩ := Nat.exists_eq_succ_of_ne_zero fun h => hdate (daysLeft_eq_zero_iff.1 h)
  have hfalls : falls template weekdays 0 = true := by
    rw [falls, Int.natCast_zero, Int.add_zero]
    exact WeekdaySet.mem_def.1 hday
  rw [offsets, hdays, List.range_succ_eq_map, List.filter_cons_of_pos hfalls, List.head?_cons]

theorem head?_series (hday : template.start.weekday ∈ weekdays)
    (hdate : template.start.date ≠ Date.last) :
    (series template weekdays).head? = some template := by
  obtain ⟨rest, hoffsets⟩ := List.head?_eq_some_iff.1 (head?_offsets hday hdate)
  have hsome : ((series template weekdays).map some).head? = some (some template) := by
    rw [map_some_series, hoffsets, List.map_cons, later?_zero, List.takeWhile_cons]
    rfl
  rw [List.head?_map, Option.map_eq_some_iff] at hsome
  obtain ⟨e, hhead, he⟩ := hsome
  rw [hhead, he]

theorem head?_expand_of_head?_series
    (hbound : ∀ bound, rule.ending = .before bound → template.start.SecondBefore bound)
    (hseries : (series template rule.weekdays).head? = some template) :
    (rule.expand template).head? = some template := by
  obtain ⟨weekdays, n | bound⟩ := rule
  · have hpos : n.val ≠ 0 := Nat.one_le_iff_ne_zero.1 n.property.1
    rw [expand_count, List.head?_take, if_neg hpos, hseries]
  · have hbefore : template.start.SecondBefore bound := hbound bound rfl
    rw [expand_before, List.head?_takeWhile, hseries, Option.filter_some, decide_eq_true hbefore]
    rfl

/-- The first occurrence is the template, if its weekday is in the set and the rule counts or ends at
least a second after its start, on every date but the last of the calendar. On that one there is no
occurrence. -/
theorem head?_expand (hday : template.start.weekday ∈ rule.weekdays)
    (hbound : ∀ bound, rule.ending = .before bound → template.start.SecondBefore bound) :
    (template.start.date ≠ Date.last → (rule.expand template).head? = some template) ∧
      (template.start.date = Date.last → rule.expand template = []) := by
  refine ⟨fun hdate => ?_, fun hdate => ?_⟩
  · exact head?_expand_of_head?_series hbound (head?_series hday hdate)
  · have hfirst := expand_isPrefix_series template rule
    rw [series_of_date_eq_last hdate] at hfirst
    exact List.prefix_nil.1 hfirst

def daily (ending : Ending) : Rule := ⟨⟨0x7F#7⟩, ending⟩

def countdown : Event :=
  ⟨"Countdown", ⟨8272402380000, by decide, by decide⟩, ⟨8272402383600, by decide, by decide⟩,
    false, "Roof", "", false, by decide⟩

/-- A second after the start is late enough for a rule to end. -/
theorem head?_expand_countdown :
    let bound : Instant := ⟨8272402380001, by decide, by decide⟩
    let rule := daily (.before bound)
    countdown.start.weekday ∈ rule.weekdays ∧ countdown.start < bound ∧
      (∀ bound, rule.ending = .before bound → countdown.start.SecondBefore bound) ∧
      (rule.expand countdown).head? = some countdown := by
  intro bound rule
  have hday : countdown.start.weekday ∈ rule.weekdays := by decide
  have hlt : countdown.start < bound := by decide
  have hbound : ∀ bound, rule.ending = .before bound → countdown.start.SecondBefore bound := by
    rintro _ ⟨⟩
    exact Moment.secondBefore_coe.2 hlt
  exact ⟨hday, hlt, hbound, (head?_expand hday hbound).1 (by decide)⟩

def finale : Event :=
  ⟨"Finale", ⟨8272402466400, by decide, by decide⟩, ⟨8272402470000, by decide, by decide⟩, false,
    "Roof", "", false, by decide⟩

/-- Neither one occurrence nor all of them before the last second are any. -/
theorem expand_finale :
    let once := daily (.count ⟨1, by decide⟩)
    let lastSecond : Instant := ⟨8272402473599, by decide, by decide⟩
    finale.start.weekday ∈ once.weekdays ∧ once.expand finale = [] ∧
      finale.start < lastSecond ∧ (daily (.before lastSecond)).expand finale = [] := by
  decide +kernel

end Rule
end Daybook
