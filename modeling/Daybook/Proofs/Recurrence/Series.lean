import Mathlib.Data.List.TakeWhile
import Daybook.Proofs.Recurrence.Occurrences

/-!
The series of a template on a set of weekdays. Main statements: it is the template on one day of
the set after another until the calendar has no room for it, and every rule takes a first part of
it: so many occurrences, or those that start at least a second before its bound.
-/
namespace Daybook.Rule
variable {template e : Event} {weekdays : WeekdaySet} {admits : Instant → Bool}
  {days budget offset : Nat} {rule rule' : Rule}

def falls (template : Event) (weekdays : WeekdaySet) (k : Nat) : Bool :=
  weekdays.contains (Date.weekdayOf (template.start.date.number + k))

def offsets (template : Event) (weekdays : WeekdaySet) : List Nat :=
  (List.range (daysLeft template)).filter (falls template weekdays)

def later? (template : Event) (k : Nat) : Option Event :=
  (template.start.addDays? k).bind template.movedTo?

def series (template : Event) (weekdays : WeekdaySet) : List Event :=
  walk template weekdays (fun _ => true) (daysLeft template) (daysLeft template) 0

/-- A walk goes over the days of the set up to the first that has no occurrence, or one that is not
admitted. -/
theorem map_some_walk :
    (walk template weekdays admits days budget offset).map some =
      ((((List.range' offset days).filter (falls template weekdays)).take budget).map
        (later? template)).takeWhile (·.any fun e => admits e.start) := by
  fun_induction walk template weekdays admits days budget offset with
  | case1 | case2 => simp
  | case3 days budget offset hday hnone =>
    simp [List.range'_succ, falls, hday, later?, hnone]
  | case4 days budget offset hday start hstart hadmits hnone =>
    simp [List.range'_succ, falls, hday, later?, hstart, hnone]
  | case5 days budget offset hday start hstart hadmits e he ih =>
    obtain rfl : e.start = start := (Event.movedTo?_eq_some_iff.1 he).1
    simp [List.range'_succ, falls, hday, later?, hstart, he, hadmits, ih]
  | case6 days budget offset hday start hstart hadmits =>
    cases he : template.movedTo? start with
    | none => simp [List.range'_succ, falls, hday, later?, hstart, he]
    | some e =>
      obtain rfl : e.start = start := (Event.movedTo?_eq_some_iff.1 he).1
      simp [List.range'_succ, falls, hday, later?, hstart, he, hadmits]
  | case7 days budget offset hday ih =>
    simp [List.range'_succ, falls, hday, ih]

theorem map_some_walk_from_zero :
    (walk template weekdays admits (daysLeft template) budget 0).map some =
      (((offsets template weekdays).take budget).map (later? template)).takeWhile
        (·.any fun e => admits e.start) := by
  rw [map_some_walk, offsets, List.range_eq_range']

theorem take_offsets (template : Event) (weekdays : WeekdaySet) :
    (offsets template weekdays).take (daysLeft template) = offsets template weekdays := by
  refine List.take_of_length_le ?_
  have hle := (List.range (daysLeft template)).length_filter_le (falls template weekdays)
  rwa [List.length_range] at hle

theorem map_some_series (template : Event) (weekdays : WeekdaySet) :
    (series template weekdays).map some =
      ((offsets template weekdays).map (later? template)).takeWhile Option.isSome := by
  rw [series, map_some_walk_from_zero, take_offsets]
  simp

theorem map_some_inj {es fs : List Event} : es.map some = fs.map some ↔ es = fs :=
  List.map_inj_right fun _ _ => Option.some.inj

theorem walk_eq_take_series :
    walk template weekdays (fun _ => true) (daysLeft template) budget 0 =
      (series template weekdays).take budget := by
  rw [← map_some_inj, List.map_take, map_some_series, List.take_takeWhile, ← List.map_take,
    map_some_walk_from_zero]
  simp

theorem walk_eq_takeWhile_series :
    walk template weekdays admits (daysLeft template) (daysLeft template) 0 =
      (series template weekdays).takeWhile fun e => admits e.start := by
  have hsome : ((series template weekdays).takeWhile fun e => admits e.start).map some =
      ((series template weekdays).map some).takeWhile (·.any fun e => admits e.start) :=
    (List.takeWhile_map (f := some) (p := (·.any fun e : Event => admits e.start))).symm
  rw [← map_some_inj, hsome, map_some_series, List.takeWhile_takeWhile, map_some_walk_from_zero,
    take_offsets]
  congr 1
  funext found
  cases found <;> simp

theorem series_of_isEmpty (hempty : weekdays.isEmpty = true) : series template weekdays = [] := by
  have hbits : weekdays.bits = 0 := by simpa [WeekdaySet.isEmpty] using hempty
  have hfalls : falls template weekdays = fun _ => false := by
    funext k
    simp [falls, WeekdaySet.contains, hbits]
  rw [← map_some_inj, map_some_series, offsets, hfalls]
  simp

theorem expand_count (n : Count) :
    expand template ⟨weekdays, .count n⟩ = (series template weekdays).take n := by
  by_cases hempty : weekdays.isEmpty = true
  · simp [expand, limits?, hempty, series_of_isEmpty hempty]
  · simp [expand, limits?, hempty, walk_eq_take_series]

theorem expand_before (bound : Moment) :
    expand template ⟨weekdays, .before bound⟩ =
      (series template weekdays).takeWhile fun e => decide (e.start.SecondBefore bound) := by
  by_cases hempty : weekdays.isEmpty = true
  · simp [expand, limits?, hempty, series_of_isEmpty hempty]
  · cases hlast : bound.secondEarlier? with
    | none => simp [expand, limits?, hempty, hlast, Moment.not_secondBefore hlast]
    | some last =>
      simp [expand, limits?, hempty, hlast, Moment.le_iff_secondBefore hlast,
        walk_eq_takeWhile_series]

theorem expand_isPrefix_series (template : Event) (rule : Rule) :
    rule.expand template <+: series template rule.weekdays := by
  obtain ⟨weekdays, n | bound⟩ := rule
  · rw [expand_count]
    exact List.take_prefix _ _
  · rw [expand_before]
    exact List.takeWhile_prefix _

theorem expand_isPrefix_or_isPrefix (template : Event) (h : rule'.weekdays = rule.weekdays) :
    rule.expand template <+: rule'.expand template ∨
      rule'.expand template <+: rule.expand template :=
  List.prefix_or_prefix_of_prefix (expand_isPrefix_series template rule)
    (h ▸ expand_isPrefix_series template rule')

/-- The occurrences of a rule come on the first of the days of its weekdays. -/
theorem exists_offsets (template : Event) (rule : Rule) :
    ∃ ks, ks <+: offsets template rule.weekdays ∧
      (rule.expand template).map some = ks.map (later? template) := by
  refine List.prefix_map_iff.1 (((expand_isPrefix_series template rule).map some).trans ?_)
  rw [map_some_series]
  exact List.takeWhile_prefix _

end Daybook.Rule
