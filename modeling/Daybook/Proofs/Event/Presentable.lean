import Daybook.Event.Patch
import Daybook.Proofs.Command.Words
import Daybook.Proofs.Event.WellFormed
import Daybook.Proofs.Recurrence.Occurrences

/-!
Events as lines make them. Main statements: both constructors give such events on whole minutes, and
neither later days nor patches lead out of them.
-/
namespace Daybook.Event
variable {e template : Event}

structure Presentable (e : Event) : Prop extends e.WellFormed where
  phrase : Phrase e.name.toList

theorem presentable_of_timed {name : String} {start stop : Instant}
    (h : timed name start stop = .ok e) (hname : Phrase name.toList) (hstart : start.OnMinute)
    (hstop : stop.OnMinute) : e.Presentable := by
  obtain ⟨-, hsame, -⟩ := of_timed h
  exact ⟨wellFormed_of_timed h hstart hstop, hsame ▸ hname⟩

theorem presentable_of_onDay {name : String} {date : Date} (h : onDay name date = .ok e)
    (hname : Phrase name.toList) : e.Presentable := by
  obtain ⟨-, hsame, -⟩ := of_onDay h
  exact ⟨wellFormed_of_onDay h, hsame ▸ hname⟩

theorem WholeDay.occurrence {weekdays : WeekdaySet} {k : Nat} (h : template.WholeDay)
    (he : Rule.OccursAfter template weekdays k e) : e.WholeDay := by
  intro hallDay
  have hstart := he.start
  have hstop := he.stop
  obtain ⟨-, -, -, hday, -⟩ := movedTo?_eq_some_iff.1 he.moved
  rw [duration] at hstop
  obtain ⟨hmidnight, hnext⟩ := h (hday ▸ hallDay)
  have hfirst := congrArg Instant.number hmidnight
  have hlast := Instant.addSeconds?_eq_some_iff.1 hnext
  simp only [Instant.midnight, Instant.onDate, Instant.date] at hfirst
  refine ⟨Instant.ext ?_, Instant.addSeconds?_eq_some_iff.2 ?_⟩
  · simp only [Instant.midnight, Instant.onDate, Instant.date]
    omega
  · omega

theorem Presentable.occurrence {weekdays : WeekdaySet} {k : Nat} (h : template.Presentable)
    (he : Rule.OccursAfter template weekdays k e) : e.Presentable := by
  have hstart := he.start
  have hstop := he.stop
  have hfrom : template.start.number % 60 = 0 := h.start_onMinute
  have hto : template.stop.number % 60 = 0 := h.stop_onMinute
  have hday : template.WholeDay := h.whole_day
  obtain ⟨-, -, hname, -⟩ := movedTo?_eq_some_iff.1 he.moved
  rw [duration] at hstop
  refine ⟨⟨hname ▸ h.name_ne_empty, ?_, ?_, hday.occurrence he⟩, hname ▸ h.phrase⟩
  · rw [Instant.OnMinute]
    omega
  · rw [Instant.OnMinute]
    omega

theorem Presentable.apply {p : Patch} (h : e.Presentable)
    (hp : ∀ value, p = .name value → Phrase value.toList) : (e.apply p).Presentable := by
  cases p with
  | name value =>
    have hname := hp value rfl
    have hne : value ≠ "" := fun hempty => hname.ne_nil (by simp [hempty])
    exact ⟨⟨hne, h.start_onMinute, h.stop_onMinute, h.whole_day⟩, hname⟩
  | description value | location value | visibility value =>
    exact ⟨⟨h.name_ne_empty, h.start_onMinute, h.stop_onMinute, h.whole_day⟩, h.phrase⟩

end Daybook.Event
