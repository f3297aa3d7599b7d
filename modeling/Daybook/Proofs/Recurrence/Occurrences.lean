import Daybook.Recurrence

/-!
Occurrences of a rule. Main statements: each is the template some whole days later, and they stand
on different days, so that those of a template of at most a day do not overlap.
-/
namespace Daybook.Rule
variable {template e : Event} {weekdays : WeekdaySet} {admits : Instant → Bool}
  {days budget offset : Nat}

structure OccursAfter (template : Event) (weekdays : WeekdaySet) (k : Nat) (e : Event) : Prop where
  start : e.start.number = template.start.number + 86400 * k
  weekday : weekdays.contains (Date.weekdayOf (template.start.date.number + k)) = true
  moved : template.movedTo? e.start = some e

theorem OccursAfter.stop {k : Nat} (h : OccursAfter template weekdays k e) :
    e.stop.number = e.start.number + template.duration :=
  Instant.addSeconds?_eq_some_iff.1 (Event.movedTo?_eq_some_iff.1 h.moved).2.1

theorem exists_of_mem_walk (h : e ∈ walk template weekdays admits days budget offset) :
    ∃ k, offset ≤ k ∧ OccursAfter template weekdays k e := by
  fun_induction walk template weekdays admits days budget offset with
  | case1 | case2 | case3 | case4 | case6 => cases h
  | case5 days budget offset hday start hstart _ f hf ih =>
    rcases List.mem_cons.1 h with rfl | h
    · obtain rfl : e.start = start := (Event.movedTo?_eq_some_iff.1 hf).1
      refine ⟨offset, Nat.le_refl _, ?_, hday, hf⟩
      exact Instant.addSeconds?_eq_some_iff.1 hstart
    · obtain ⟨k, hk, hoccurs⟩ := ih h
      exact ⟨k, Nat.le_of_succ_le hk, hoccurs⟩
  | case7 days budget offset _ ih =>
    obtain ⟨k, hk, hoccurs⟩ := ih h
    exact ⟨k, Nat.le_of_succ_le hk, hoccurs⟩

/-- Each occurrence of a walk starts a day or more before the next. -/
theorem pairwise_walk : (walk template weekdays admits days budget offset).Pairwise
    fun e f => e.start.number + 86400 ≤ f.start.number := by
  fun_induction walk template weekdays admits days budget offset with
  | case1 | case2 | case3 | case4 | case6 => exact List.Pairwise.nil
  | case5 days budget offset _ start hstart _ f hf ih =>
    refine List.pairwise_cons.2 ⟨fun g hg => ?_, ih⟩
    obtain ⟨k, hk, hoccurs⟩ := exists_of_mem_walk hg
    have hfirst := Instant.addSeconds?_eq_some_iff.1 hstart
    rw [(Event.movedTo?_eq_some_iff.1 hf).1, hoccurs.start]
    omega
  | case7 days budget offset _ ih => exact ih

theorem exists_of_mem_expand {rule : Rule} (h : e ∈ rule.expand template) :
    ∃ k, OccursAfter template rule.weekdays k e := by
  rw [expand] at h
  split at h
  · cases h
  · obtain ⟨k, -, hoccurs⟩ := exists_of_mem_walk h
    exact ⟨k, hoccurs⟩

theorem pairwise_expand (template : Event) (rule : Rule) :
    (rule.expand template).Pairwise fun e f => e.start.number + 86400 ≤ f.start.number := by
  rw [expand]
  split
  · exact List.Pairwise.nil
  · exact pairwise_walk

/-- Occurrences that last a day at most do not overlap. -/
theorem pairwise_not_overlaps_expand (template : Event) (rule : Rule)
    (hduration : template.duration ≤ 86400) :
    (rule.expand template).Pairwise fun e f => ¬ e.Overlaps f := by
  refine (pairwise_expand template rule).imp_of_mem fun {e f} he _ hdays hoverlaps => ?_
  obtain ⟨k, hoccurs⟩ := exists_of_mem_expand he
  have hlt := Instant.lt_def.1 hoverlaps.2
  rw [hoccurs.stop] at hlt
  omega

end Daybook.Rule
