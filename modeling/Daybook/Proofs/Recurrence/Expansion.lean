import Mathlib.Data.List.Basic
import Daybook.Proofs.Recurrence.FirstDay

/-!
Expansions as lists of dates. Main statement: a rule that counts gives a template the first of the
dates of the set on which it fits into the calendar, a rule that ends before a moment those of them
at which the template's time of day comes at least a second before it, and nothing but the times
differs.
-/
namespace Daybook

namespace Instant

theorem addDays?_eq_map (t : Instant) (n : Int) :
    t.addDays? n = (t.date.addDays? n).map t.onSameTime := by
  have hsplit := t.number_eq
  have hlt := t.secondOfDay_lt
  rw [addDays?, addSeconds?, ofNumber?, Date.addDays?, Date.ofNumber?]
  split
  · rw [dif_pos (by omega)]
    refine congrArg some (ext ?_)
    rw [onSameTime, number_onDate]
    simp only
    omega
  · rw [dif_neg (by omega)]
    rfl

end Instant

structure Event.CopyOf (e template : Event) : Prop where
  duration : e.duration = template.duration
  name : e.name = template.name
  description : e.description = template.description
  location : e.location = template.location
  isPublic : e.isPublic = template.isPublic
  allDay : e.allDay = template.allDay

namespace Rule
variable {template e : Event} {weekdays : WeekdaySet} {rule : Rule}

def dateAfter? (template : Event) (k : Nat) : Option Date := template.start.date.addDays? k

def dates (template : Event) (weekdays : WeekdaySet) : List Date :=
  (offsets template weekdays).filterMap (dateAfter? template)

def starts (template : Event) (weekdays : WeekdaySet) : List Instant :=
  (dates template weekdays).map template.start.onSameTime

/-- How many of the starts there are before the first at which the calendar has no room for the
template. -/
def fitting (template : Event) (weekdays : WeekdaySet) : Nat :=
  (starts template weekdays).findIdx fun t => (t.addSeconds? template.duration).isNone

theorem dateAfter?_eq_some_iff {k : Nat} {d : Date} :
    dateAfter? template k = some d ↔ d.number = template.start.date.number + k := by
  have hfirst := d.first_le
  have hlast := d.le_last
  rw [dateAfter?, Date.addDays?, Date.ofNumber?]
  constructor
  · intro h
    split at h <;> cases h
    rfl
  · intro h
    rw [dif_pos (by omega)]
    exact congrArg some (Date.ext h.symm)

theorem mem_offsets_iff {k : Nat} :
    k ∈ offsets template weekdays ↔ k < daysLeft template ∧ falls template weekdays k = true := by
  rw [offsets, List.mem_filter, List.mem_range]

theorem pairwise_dates (template : Event) (weekdays : WeekdaySet) :
    (dates template weekdays).Pairwise (· < ·) := by
  refine List.Pairwise.filterMap _ ?_ (List.pairwise_lt_range.filter _)
  intro j k hlt d hd d' hd'
  rw [dateAfter?_eq_some_iff] at hd hd'
  rw [Date.lt_def]
  omega

theorem mem_dates_iff {d : Date} :
    d ∈ dates template weekdays ↔
      template.start.date ≤ d ∧ d < Date.last ∧ d.weekday ∈ weekdays := by
  rw [← and_assoc, ← exists_offset_iff, dates, List.mem_filterMap]
  simp only [mem_offsets_iff, dateAfter?_eq_some_iff, falls, WeekdaySet.mem_def, Date.weekday]
  constructor
  · rintro ⟨k, ⟨hk, hday⟩, hdate⟩
    exact ⟨⟨k, hk, hdate⟩, hdate ▸ hday⟩
  · rintro ⟨⟨k, hk, hdate⟩, hday⟩
    exact ⟨k, ⟨hk, hdate ▸ hday⟩, hdate⟩

theorem map_some_dates (template : Event) (weekdays : WeekdaySet) :
    (dates template weekdays).map some =
      (offsets template weekdays).map (dateAfter? template) := by
  rw [dates, List.map_filterMap_some_eq_filter_map_isSome, List.filter_eq_self]
  intro found hfound
  obtain ⟨k, hk, rfl⟩ := List.mem_map.1 hfound
  have hleft := daysLeft_eq template
  have hfirst := template.start.date.first_le
  have hlt := (mem_offsets_iff.1 hk).1
  simp only [Date.last] at hleft
  rw [dateAfter?, Date.addDays?, Date.ofNumber?, dif_pos (by omega)]
  rfl

theorem later?_eq_bind (template : Event) (k : Nat) :
    later? template k = (dateAfter? template k).bind fun d =>
      template.movedTo? (template.start.onSameTime d) := by
  rw [later?, Instant.addDays?_eq_map, Option.bind_map]
  rfl

theorem map_later?_offsets (template : Event) (weekdays : WeekdaySet) :
    (offsets template weekdays).map (later? template) =
      (starts template weekdays).map template.movedTo? := by
  let move := fun d => template.movedTo? (template.start.onSameTime d)
  calc
    (offsets template weekdays).map (later? template)
      = ((offsets template weekdays).map (dateAfter? template)).map
          (·.bind move) := by
        rw [List.map_map]
        exact List.map_congr_left fun k _ => later?_eq_bind template k
    _ = ((dates template weekdays).map some).map (·.bind move) := by rw [map_some_dates]
    _ = (starts template weekdays).map template.movedTo? := by
        rw [starts, List.map_map, List.map_map]
        rfl

theorem isSome_movedTo? (template : Event) (t : Instant) :
    (template.movedTo? t).isSome = !(t.addSeconds? template.duration).isNone := by
  unfold Event.movedTo?
  split <;> simp_all

/-- The series is the template moved to the starts, as far as it fits. -/
theorem map_some_series_eq (template : Event) (weekdays : WeekdaySet) :
    (series template weekdays).map some =
      ((starts template weekdays).take (fitting template weekdays)).map template.movedTo? := by
  rw [map_some_series, map_later?_offsets, List.takeWhile_map, fitting,
    List.takeWhile_eq_take_findIdx_not]
  simp [isSome_movedTo?]

theorem exists_stop_of_mem_take {t : Instant}
    (h : t ∈ (starts template weekdays).take (fitting template weekdays)) :
    ∃ stop, t.addSeconds? template.duration = some stop := by
  obtain ⟨i, hi, rfl⟩ := List.mem_take_iff_getElem.1 h
  have hfits := List.not_of_lt_findIdx (Nat.lt_of_lt_of_le hi (Nat.min_le_left _ _))
  exact Option.isSome_iff_exists.1 (Option.isNone_eq_false_iff.1 hfits)

theorem start_mem_take_starts (hday : template.start.weekday ∈ weekdays)
    (hdate : template.start.date ≠ Date.last) :
    template.start ∈ (starts template weekdays).take (fitting template weekdays) := by
  have hhead : ((series template weekdays).map some).head? = some (some template) := by
    rw [List.head?_map, head?_series hday hdate, Option.map_some]
  rw [map_some_series_eq, List.head?_map, Option.map_eq_some_iff] at hhead
  obtain ⟨t, ht, hmoved⟩ := hhead
  rw [(Event.movedTo?_eq_some_iff.1 hmoved).1]
  exact List.mem_of_mem_head? ht

theorem addSeconds?_of_getElem?_fitting {t : Instant}
    (h : (starts template weekdays)[fitting template weekdays]? = some t) :
    t.addSeconds? template.duration = none := by
  obtain ⟨hlt, rfl⟩ := List.getElem?_eq_some_iff.1 h
  exact Option.isNone_iff_eq_none.1 (List.findIdx_getElem (w := hlt))

theorem series_pairwise (template : Event) (weekdays : WeekdaySet) :
    (series template weekdays).Pairwise fun e f => e.start < f.start := by
  refine pairwise_walk.imp fun {e f} h => ?_
  rw [Instant.lt_def]
  omega

theorem takeWhile_secondBefore_eq_filter {es : List Event}
    (h : es.Pairwise fun e f => e.start < f.start) (bound : Moment) :
    (es.takeWhile fun e => decide (e.start.SecondBefore bound)) =
      es.filter fun e => decide (e.start.SecondBefore bound) := by
  induction es with
  | nil => rfl
  | cons e es ih =>
    obtain ⟨hfirst, hrest⟩ := List.pairwise_cons.1 h
    by_cases he : e.start.SecondBefore bound
    · simp [he, ih hrest]
    · have hnone : es.filter (fun f => decide (f.start.SecondBefore bound)) = [] := by
        refine List.filter_eq_nil_iff.2 fun f hf hbefore => he ?_
        exact Moment.secondBefore_of_le (Int.le_of_lt (hfirst f hf)) (of_decide_eq_true hbefore)
      simp [he, hnone]

/-- A rule takes the starts in order, as far as the template fits: so many of them, or those before
its bound. -/
theorem map_some_expand_count (n : Count) :
    (expand template ⟨weekdays, .count n⟩).map some =
      ((starts template weekdays).take (min n (fitting template weekdays))).map
        template.movedTo? := by
  rw [expand_count, List.map_take, map_some_series_eq, ← List.map_take, List.take_take]

theorem map_some_expand_before (bound : Moment) :
    (expand template ⟨weekdays, .before bound⟩).map some =
      (((starts template weekdays).take (fitting template weekdays)).filter
        fun t => decide (t.SecondBefore bound)).map template.movedTo? := by
  have hfilter :
      ((series template weekdays).filter fun e => decide (e.start.SecondBefore bound)).map some =
        ((series template weekdays).map some).filter
          (·.any fun e => decide (e.start.SecondBefore bound)) :=
    (List.filter_map (f := some)
      (p := (·.any fun e : Event => decide (e.start.SecondBefore bound)))).symm
  rw [expand_before, takeWhile_secondBefore_eq_filter (series_pairwise template weekdays), hfilter,
    map_some_series_eq, List.filter_map]
  refine congrArg (List.map template.movedTo?) (List.filter_congr fun t ht => ?_)
  obtain ⟨stop, hstop⟩ := exists_stop_of_mem_take ht
  obtain ⟨e, he⟩ := Event.exists_movedTo?_iff.2 ⟨stop, hstop⟩
  simp [he, (Event.movedTo?_eq_some_iff.1 he).1]

/-- What starts less than a second before the bound is left out, though it starts before it. -/
theorem map_some_expand_before_eq_iff (bound : Moment) :
    (expand template ⟨weekdays, .before bound⟩).map some =
        (((starts template weekdays).take (fitting template weekdays)).filter
          fun t : Instant => decide ((t : Moment) < bound)).map template.movedTo? ↔
      ∀ t ∈ (starts template weekdays).take (fitting template weekdays),
        (t : Moment) < bound → t.SecondBefore bound := by
  rw [map_some_expand_before]
  constructor
  · intro h t ht hlt
    have hsub := ((starts template weekdays).take (fitting template weekdays)).monotone_filter_right
      (p := fun t => decide (t.SecondBefore bound))
      (q := fun t : Instant => decide ((t : Moment) < bound))
      fun t h => decide_eq_true (Moment.lt_of_secondBefore (of_decide_eq_true h))
    have hlength := congrArg List.length h
    rw [List.length_map, List.length_map] at hlength
    have hmem := List.mem_filter (p := fun t : Instant => decide ((t : Moment) < bound)).2
      ⟨ht, decide_eq_true hlt⟩
    rw [← hsub.eq_of_length hlength] at hmem
    exact of_decide_eq_true (List.mem_filter.1 hmem).2
  · intro h
    refine congrArg (List.map template.movedTo?) (List.filter_congr fun t ht => ?_)
    exact decide_eq_decide.2 ⟨Moment.lt_of_secondBefore, h t ht⟩

theorem copyOf_of_mem_expand (h : e ∈ rule.expand template) : e.CopyOf template := by
  obtain ⟨k, hoccurs⟩ := exists_of_mem_expand h
  obtain ⟨-, -, hname, hday, hdescription, hlocation, hpublic⟩ :=
    Event.movedTo?_eq_some_iff.1 hoccurs.moved
  refine ⟨?_, hname, hdescription, hlocation, hpublic, hday⟩
  rw [Event.duration, hoccurs.stop]
  omega

def standup : Event :=
  ⟨"Standup", ⟨63876592800, by decide, by decide⟩, ⟨63876596400, by decide, by decide⟩, false, "",
    "", true, by decide⟩

/-- Two and a half days long, four days before the last date: the third one is the last to fit. -/
example :
    let template : Event := ⟨"Cruise", ⟨8272402041600, by decide, by decide⟩,
      ⟨8272402257600, by decide, by decide⟩, false, "", "", true, by decide⟩
    (expand template ⟨⟨0x7F#7⟩, .count ⟨10, by decide⟩⟩).map (·.start.date.text) =
      ["+262142-12-27", "+262142-12-28", "+262142-12-29"] := by
  decide +kernel

end Rule
end Daybook
