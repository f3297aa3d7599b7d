import Daybook.Event.Patch
import Daybook.Proofs.Results

/-! Events as they can be written down: with a name, on whole minutes, whole days from midnight. -/
namespace Daybook.Event
variable {name : String} {start stop : Instant} {date : Date} {e : Event}

theorem of_timed (h : timed name start stop = .ok e) :
    name ≠ "" ∧ e.name = name ∧ e.start = start ∧ e.stop = stop ∧ e.allDay = false := by
  rw [timed] at h
  split at h
  · cases h
  · rename_i hname
    split at h <;> cases h
    exact ⟨hname, rfl, rfl, rfl, rfl⟩

theorem of_onDay (h : onDay name date = .ok e) :
    name ≠ "" ∧ e.name = name ∧ e.start = Instant.midnight date ∧
      e.start.addDays? 1 = some e.stop ∧ e.allDay = true := by
  simp only [onDay] at h
  split at h
  · cases h
  · rename_i stop hstop
    obtain ⟨f, hmade, rfl⟩ := map_eq_ok_iff.1 h
    obtain ⟨hname, hname', hstart, hstop', -⟩ := of_timed hmade
    refine ⟨hname, hname', hstart, ?_, rfl⟩
    simp only [hstart, hstop', hstop]

theorem onDay_eq_ok_iff :
    onDay name date = .ok e ↔
      name ≠ "" ∧ e.name = name ∧ e.start = Instant.midnight date ∧
        e.start.addDays? 1 = some e.stop ∧ e.allDay = true ∧ e.description = "" ∧
        e.location = "" ∧ e.isPublic = true := by
  constructor
  · intro h
    obtain ⟨hname, hname', hstart, hstop, hday⟩ := of_onDay h
    refine ⟨hname, hname', hstart, hstop, hday, ?_⟩
    rw [onDay, ← hstart, hstop] at h
    simp only [timed, if_neg hname, dif_pos e.start_lt_stop, Except.map, Except.ok.injEq] at h
    rw [← h]
    exact ⟨rfl, rfl, rfl⟩
  · intro h
    obtain ⟨hname, rfl, hstart, hstop, hday, hdescription, hlocation, hpublic⟩ := h
    rw [onDay, ← hstart, hstop]
    simp only [timed, if_neg hname, dif_pos e.start_lt_stop, Except.map]
    obtain ⟨name, start, stop, allDay, description, location, isPublic, hlt⟩ := e
    simp_all

theorem exists_movedTo?_iff {start : Instant} :
    (∃ f, e.movedTo? start = some f) ↔ ∃ stop, start.addSeconds? e.duration = some stop := by
  unfold movedTo?
  split <;> simp_all

theorem duration_of_onDay (h : onDay name date = .ok e) : e.duration = 86400 := by
  obtain ⟨-, -, -, hstop, -⟩ := of_onDay h
  have hlater := Instant.addSeconds?_eq_some_iff.1 hstop
  rw [duration]
  omega

def WholeDay (e : Event) : Prop :=
  e.allDay = true → e.start = Instant.midnight e.start.date ∧ e.start.addDays? 1 = some e.stop

theorem wholeDay_of_timed (h : timed name start stop = .ok e) : e.WholeDay := by
  obtain ⟨-, -, -, -, hday⟩ := of_timed h
  intro hallDay
  rw [hday] at hallDay
  cases hallDay

theorem wholeDay_of_onDay (h : onDay name date = .ok e) : e.WholeDay := by
  obtain ⟨-, -, hstart, hstop, -⟩ := of_onDay h
  have hdate : e.start.date = date := by
    rw [hstart]
    exact Instant.date_onDate date 0 (by decide)
  exact fun _ => ⟨by rw [hdate, hstart], hstop⟩

theorem WholeDay.apply (h : e.WholeDay) (p : Patch) : (e.apply p).WholeDay := by
  simpa [WholeDay] using h

structure WellFormed (e : Event) : Prop where
  name_ne_empty : e.name ≠ ""
  start_onMinute : e.start.OnMinute
  stop_onMinute : e.stop.OnMinute
  whole_day : e.allDay = true →
    e.start = Instant.midnight e.start.date ∧ e.start.addDays? 1 = some e.stop

instance (e : Event) : Decidable e.WellFormed :=
  decidable_of_iff (e.name ≠ "" ∧ e.start.OnMinute ∧ e.stop.OnMinute ∧ (e.allDay = true →
    e.start = Instant.midnight e.start.date ∧ e.start.addDays? 1 = some e.stop))
    ⟨fun ⟨h₁, h₂, h₃, h₄⟩ => ⟨h₁, h₂, h₃, h₄⟩, fun ⟨h₁, h₂, h₃, h₄⟩ => ⟨h₁, h₂, h₃, h₄⟩⟩

theorem wellFormed_of_timed (h : timed name start stop = .ok e) (hstart : start.OnMinute)
    (hstop : stop.OnMinute) : e.WellFormed := by
  have hday := wholeDay_of_timed h
  obtain ⟨hname, rfl, rfl, rfl, -⟩ := of_timed h
  exact ⟨hname, hstart, hstop, hday⟩

theorem wellFormed_of_onDay (h : onDay name date = .ok e) : e.WellFormed := by
  have hday := wholeDay_of_onDay h
  obtain ⟨hname, rfl, hstart, hstop, -⟩ := of_onDay h
  have hfirst : e.start.number = 86400 * date.number := by
    simp [hstart, Instant.midnight, Instant.onDate]
  have hlast := Instant.addSeconds?_eq_some_iff.1 hstop
  refine ⟨hname, ?_, ?_, hday⟩
  · rw [Instant.OnMinute]
    omega
  · rw [Instant.OnMinute]
    omega

/-- A well-formed event is built again from its name and its times. -/
theorem WellFormed.rebuild {e : Event} (h : e.WellFormed) :
    (if e.allDay then onDay e.name e.start.date else timed e.name e.start e.stop) =
      .ok { e with description := "", location := "", isPublic := true } := by
  have htimed : timed e.name e.start e.stop =
      .ok ⟨e.name, e.start, e.stop, false, "", "", true, e.start_lt_stop⟩ := by
    rw [timed, if_neg h.name_ne_empty, dif_pos e.start_lt_stop]
  cases hday : e.allDay with
  | false => simp [htimed]
  | true =>
    obtain ⟨hmidnight, hstop⟩ := h.whole_day hday
    simp only [if_true, onDay, ← hmidnight, hstop, htimed, Except.map]

end Daybook.Event
