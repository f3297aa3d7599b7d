import Daybook.Proofs.Session.Characters

/-!
What is on at a date. Main statement: in a session that commands lead to, the events on a date are
those that reach into the interval from its midnight to the next, and the timed events that end at
its midnight.
-/
namespace Daybook
variable {d next : Date}

theorem Date.exists_next (hd : d ≠ Date.last) :
    ∃ next, d.addDays? 1 = some next ∧ next.number = d.number + 1 := by
  have hne : d.number ≠ 95745398 := fun h => hd (Date.ext h)
  have hfirst := d.first_le
  have hlast := d.le_last
  have hnext : -95746130 ≤ d.number + 1 ∧ d.number + 1 ≤ 95745398 := by omega
  exact ⟨⟨d.number + 1, hnext.1, hnext.2⟩, dif_pos hnext, rfl⟩

theorem perm_filter_or {α : Type} {p q : α → Prop} [DecidablePred p] [DecidablePred q]
    (h : ∀ a, p a → ¬ q a) (l : List α) :
    (l.filter fun a => decide (p a ∨ q a)).Perm
      ((l.filter fun a => decide (p a)) ++ l.filter fun a => decide (q a)) := by
  have hfirst : (l.filter fun a => decide (p a ∨ q a)).filter (fun a => decide (p a)) =
      l.filter fun a => decide (p a) := by
    rw [List.filter_filter]
    exact List.filter_congr fun a _ => by simpa using .inl
  have hsecond : (l.filter fun a => decide (p a ∨ q a)).filter (fun a => !decide (p a)) =
      l.filter fun a => decide (q a) := by
    rw [List.filter_filter]
    refine List.filter_congr fun a _ => ?_
    by_cases hp : p a
    · simp [hp, h a hp]
    · simp [hp]
  have hboth := List.filter_append_perm (fun a => decide (p a))
    (l.filter fun a => decide (p a ∨ q a))
  rw [hfirst, hsecond] at hboth
  exact hboth.symm

namespace Event
variable {e : Event}

def EndsAtMidnight (e : Event) (d : Date) : Prop := e.allDay = false ∧ e.stop = Instant.midnight d

instance (e : Event) (d : Date) : Decidable (e.EndsAtMidnight d) :=
  inferInstanceAs (Decidable (_ ∧ _))

def Between (e : Event) (d next : Date) : Prop :=
  e.start < Instant.midnight next ∧ Instant.midnight d < e.stop

instance (e : Event) (d next : Date) : Decidable (e.Between d next) :=
  inferInstanceAs (Decidable (_ ∧ _))

theorem between_iff : e.Between d next ↔
    e.start.number < 86400 * next.number ∧ 86400 * d.number < e.stop.number := by
  simp [Between, Instant.lt_def, Instant.midnight, Instant.onDate]

theorem EndsAtMidnight.not_between (h : e.EndsAtMidnight d) : ¬ e.Between d next :=
  fun hbetween => Int.lt_irrefl _ (h.2 ▸ hbetween.2)

/-- A whole day is on at its date only, and reaches into no other day. -/
theorem WholeDay.occursOn_iff (h : e.WholeDay) (hday : e.allDay = true)
    (hnext : next.number = d.number + 1) : e.OccursOn d ↔ e.Between d next := by
  obtain ⟨hmidnight, hstop⟩ := h hday
  have hfirst : e.start.number = 86400 * e.start.date.number := by
    simpa [Instant.midnight, Instant.onDate] using congrArg Instant.number hmidnight
  have hlast := Instant.addSeconds?_eq_some_iff.1 hstop
  rw [OccursOn, if_pos hday, between_iff, hlast, hfirst, hnext]
  constructor
  · rintro rfl
    omega
  · intro hbetween
    exact Date.ext (by omega)

theorem occursOn_iff_of_timed (hday : e.allDay = false) (hnext : next.number = d.number + 1) :
    e.OccursOn d ↔ e.Between d next ∨ e.EndsAtMidnight d := by
  have hlt := Instant.lt_def.1 e.start_lt_stop
  have hends : e.EndsAtMidnight d ↔ e.stop.number = 86400 * d.number := by
    refine ⟨fun h => ?_, fun h => ⟨hday, Instant.ext ?_⟩⟩
    · simp [h.2, Instant.midnight, Instant.onDate]
    · simp [h, Instant.midnight, Instant.onDate]
  -- The date of an instant rounds down, so an end at midnight still counts for the new date.
  rw [OccursOn, if_neg (by simp [hday]), between_iff, hends, hnext]
  simp only [Date.le_def, Instant.date]
  omega

end Event

namespace Store
variable {s : Store}

/-- Where whole days last from a midnight to the next, the events on a date are those of the day,
and between them, in order of the calendar, those that end when it begins. -/
theorem eventsOn_of_wholeDay (h : ∀ e ∈ s.events, e.WholeDay) (hnext : next.number = d.number + 1) :
    s.eventsOn d = s.events.filter fun e => decide (e.Between d next ∨ e.EndsAtMidnight d) := by
  refine List.filter_congr fun e he => decide_eq_decide.2 ?_
  cases hday : e.allDay with
  | true =>
    have hends : ¬ e.EndsAtMidnight d := fun hends => by simp [hends.1] at hday
    rw [(h e he).occursOn_iff hday hnext, or_iff_left hends]
  | false => exact Event.occursOn_iff_of_timed hday hnext

end Store

namespace Command
open Store (Operation)
variable {c : Command}

theorem wholeDay_of_template {template : Event} {rule : Option Rule} {declines : Bool}
    (h : c.template? = some (.ok template, rule, declines)) : template.WholeDay := by
  obtain ⟨name, start, stop, -, hmade⟩ | ⟨name, date, -, hmade⟩ := cases_of_template h
  · exact Event.wholeDay_of_timed hmade
  · exact Event.wholeDay_of_onDay hmade

theorem keeps_wholeDay_of_edit {op : Operation} (h : c.edit? = some op) :
    op.Keeps Event.WholeDay := by
  cases c with
  | editSingle | editFrom | editNamed =>
    obtain ⟨p, -, rfl⟩ := Option.map_eq_some_iff.1 h
    exact fun e he => he.apply p
  | _ => cases h

theorem keeps_wholeDay (c : Command) : c.Keeps Event.WholeDay := by
  intro policy op hop
  obtain ⟨template, rule, declines, htemplate, e, he, rfl⟩ | hedit := cases_of_mem_operations hop
  · have hday := wholeDay_of_template htemplate
    exact Event.forall_mem_occurrences hday hday.occurrence e he
  · exact keeps_wholeDay_of_edit hedit

end Command

namespace Session
variable {s : Session}

/-- Run: whole days last from a midnight to the next in every session that commands lead to. -/
theorem Reachable.wholeDay (h : s.Reachable) : ∀ e ∈ s.store.events, e.WholeDay := by
  induction h with
  | start => simp [Session.start, Store.empty]
  | run c _ ih => exact forall_mem_run c.keeps_wholeDay ih
  | outside _ _ _ ih => exact ih

/-- Asking for a date finds what asking for the interval up to the next midnight finds, and besides
the timed events that end as the date begins. For whole days both are the same. -/
theorem eventsOn_eq_day (h : s.Reachable) (hd : d ≠ Date.last) :
    ∃ next, d.addDays? 1 = some next ∧
      let between := s.store.eventsBetween (Instant.midnight d) (Instant.midnight next)
      let ending := s.store.events.filter fun e => decide (e.EndsAtMidnight d)
      s.store.eventsOn d =
          s.store.events.filter (fun e => decide (e ∈ between ∨ e ∈ ending)) ∧
        (s.store.eventsOn d).Perm (between ++ ending) ∧
        (∀ e ∈ between, e ∉ ending) ∧
        ∀ e, e.allDay = true → (e ∈ s.store.eventsOn d ↔ e ∈ between) := by
  obtain ⟨next, hnext, hnumber⟩ := Date.exists_next hd
  refine ⟨next, hnext, ?_⟩
  intro between ending
  have hon := Store.eventsOn_of_wholeDay h.wholeDay hnumber
  have hbetween : ∀ e ∈ s.store.events, e ∈ between ↔ e.Between d next := fun e he => by
    simp [between, Store.eventsBetween, Event.Between, List.mem_filter, he]
  have hending : ∀ e ∈ s.store.events, e ∈ ending ↔ e.EndsAtMidnight d := fun e he => by
    simp [ending, List.mem_filter, he]
  refine ⟨?_, ?_, fun e he hends => ?_, fun e hday => ?_⟩
  · rw [hon]
    exact List.filter_congr fun e he =>
      decide_eq_decide.2 (or_congr (hbetween e he) (hending e he)).symm
  · rw [hon]
    exact perm_filter_or (fun e hbetween hends => hends.not_between hbetween) s.store.events
  · have hmem := List.mem_of_mem_filter he
    exact ((hending e hmem).1 hends).not_between ((hbetween e hmem).1 he)
  · have hends : ¬ e.EndsAtMidnight d := fun hends => by simp [hends.1] at hday
    rw [hon, List.mem_filter, decide_eq_true_iff, or_iff_left hends]
    exact ⟨fun ⟨hmem, h⟩ => (hbetween e hmem).2 h,
      fun h => ⟨List.mem_of_mem_filter h, (hbetween e (List.mem_of_mem_filter h)).1 h⟩⟩

def longWeekend : Session :=
  (start .warn Sink.unlimited ⟨[], []⟩).executeAll
    ["create event Sunday on 2024-5-19",
      "create event Party from 2024-5-19T20:00 to 2024-5-20T0:00",
      "create event Holiday on 2024-5-20"]

def whitMonday : Date := (Date.ofNumber? 739025).get (Eq.refl true)

/-- The day before and the party end at the same midnight; only the party is on after it. -/
theorem eventsOn_longWeekend :
    longWeekend.Reachable ∧ whitMonday ≠ Date.last ∧
      (longWeekend.store.eventsOn whitMonday).map Event.name = ["Party", "Holiday"] ∧
      ∃ next, whitMonday.addDays? 1 = some next ∧
        (longWeekend.store.eventsOn whitMonday).length = 1 +
          (longWeekend.store.eventsBetween (Instant.midnight whitMonday)
            (Instant.midnight next)).length := by
  have hs : longWeekend.Reachable := (((Reachable.start _ _ _).execute _).execute _).execute _
  have hd : whitMonday ≠ Date.last := by decide
  obtain ⟨next, hnext, -, hboth, -, -⟩ := eventsOn_eq_day hs hd
  have hon : (longWeekend.store.eventsOn whitMonday).map Event.name = ["Party", "Holiday"] ∧
      (longWeekend.store.events.filter fun e =>
        decide (e.EndsAtMidnight whitMonday)).length = 1 := by decide +kernel
  refine ⟨hs, hd, hon.1, next, hnext, ?_⟩
  rw [hboth.length_eq, List.length_append, hon.2, Nat.add_comm]

end Session
end Daybook
