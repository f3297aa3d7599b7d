import Daybook.Proofs.Event.WellFormed
import Daybook.Proofs.Recurrence.Occurrences

/-!
Rules that end before an instant. Main statement: their occurrences are one for each date from the
template's on, before the last of the calendar, that is in the set and at which the template's time
of day comes before the bound.
-/
namespace Daybook
variable {template e : Event} {weekdays : WeekdaySet} {admits : Instant → Bool}
  {days budget offset : Nat} {rule : Rule} {bound : Instant}

/-- One event for each of some dates, in their order, and no other. -/
structure OneEach (On : Date → Prop) (made : Date → Event → Prop) (es : List Event) : Prop where
  ordered : (es.map (·.start.date)).Pairwise (· < ·)
  mem_iff : ∀ d, d ∈ es.map (·.start.date) ↔ On d
  made : ∀ e ∈ es, made e.start.date e

theorem OneEach.congr {On On' : Date → Prop} {made made' : Date → Event → Prop} {es : List Event}
    (h : OneEach On made es) (hon : ∀ d, On d ↔ On' d)
    (hmade : ∀ d e, On d → made d e → made' d e) : OneEach On' made' es where
  ordered := h.ordered
  mem_iff d := (h.mem_iff d).trans (hon d)
  made e he := hmade _ e ((h.mem_iff _).1 (List.mem_map_of_mem he)) (h.made e he)

namespace Instant

theorem number_onDate (d : Date) (s : Nat) (h : s < 86400) :
    (onDate d s h).number = 86400 * d.number + s := rfl

theorem number_eq (t : Instant) : t.number = 86400 * t.date.number + t.secondOfDay := by
  have h := congrArg number t.onDate_date_secondOfDay
  rw [number_onDate] at h
  exact h.symm

def onSameTime (t : Instant) (d : Date) : Instant := onDate d t.secondOfDay t.secondOfDay_lt

theorem eq_onSameTime_iff {s t : Instant} {k : Nat} :
    s = t.onSameTime s.date ∧ s.date.number = t.date.number + k ↔
      s.number = t.number + 86400 * k := by
  have hs := s.number_eq
  have ht := t.number_eq
  have hlt := t.secondOfDay_lt
  have hlt' := s.secondOfDay_lt
  constructor
  · intro h
    obtain ⟨hsame, hdate⟩ := h
    have hnumber := congrArg number hsame
    rw [onSameTime, number_onDate] at hnumber
    omega
  · intro h
    refine ⟨ext ?_, by omega⟩
    rw [onSameTime, number_onDate]
    omega

end Instant

namespace Rule

/-- A walk with room for all its days, inside the calendar, takes every day of the set whose start
is admitted. -/
theorem mem_walk_iff (hbudget : days ≤ budget)
    (hinside : template.start.date.number + offset + days ≤ Date.last.number)
    (hdown : ∀ s t : Instant, s ≤ t → admits t = true → admits s = true)
    (hmoves : ∀ (k : Nat) (start : Instant), start.number = template.start.number + 86400 * k →
      template.start.date.number + k < Date.last.number →
      weekdays.contains (Date.weekdayOf (template.start.date.number + k)) = true →
      admits start = true → ∃ e, template.movedTo? start = some e) :
    e ∈ walk template weekdays admits days budget offset ↔
      ∃ k, offset ≤ k ∧ k < offset + days ∧ OccursAfter template weekdays k e ∧
        admits e.start = true := by
  fun_induction walk template weekdays admits days budget offset with
  | case1 budget offset =>
    refine iff_of_false List.not_mem_nil ?_
    rintro ⟨k, hk, hlt, -⟩
    omega
  | case2 => omega
  | case3 days budget offset hday hnone =>
    have hlast : template.start.number + 86400 * offset ≤ 8272402473599 := by
      have hsplit := template.start.number_eq
      have hlt := template.start.secondOfDay_lt
      simp only [Date.last] at hinside
      omega
    have hfirst := template.start.first_le
    simp only [Instant.addDays?, Instant.addSeconds?, Instant.ofNumber?] at hnone
    rw [dif_pos ⟨by omega, hlast⟩] at hnone
    cases hnone
  | case4 days budget offset hday start hstart hadmits hnone =>
    obtain ⟨f, hf⟩ := hmoves offset start (Instant.addSeconds?_eq_some_iff.1 hstart) (by omega)
      hday hadmits
    rw [hnone] at hf
    cases hf
  | case5 days budget offset hday start hstart hadmits f hf ih =>
    have hnumber := Instant.addSeconds?_eq_some_iff.1 hstart
    have hfstart := (Event.movedTo?_eq_some_iff.1 hf).1
    rw [List.mem_cons, ih (by omega) (by omega)]
    constructor
    · intro h
      obtain rfl | ⟨k, hk, hlt, hoccurs⟩ := h
      · exact ⟨offset, Nat.le_refl _, by omega,
          ⟨hfstart ▸ hnumber, hday, hfstart ▸ hf⟩, hfstart ▸ hadmits⟩
      · exact ⟨k, by omega, by omega, hoccurs⟩
    · intro h
      obtain ⟨k, hk, hlt, hoccurs, hadmitted⟩ := h
      by_cases hfirst : k = offset
      · subst hfirst
        have hsame : e.start = start := Instant.ext (hoccurs.start.trans hnumber.symm)
        have hmoved := hoccurs.moved
        rw [hsame, hf] at hmoved
        exact .inl (Option.some.inj hmoved).symm
      · exact .inr ⟨k, by omega, by omega, hoccurs, hadmitted⟩
  | case6 days budget offset hday start hstart hadmits =>
    refine iff_of_false List.not_mem_nil ?_
    rintro ⟨k, hk, -, hoccurs, hadmitted⟩
    refine hadmits (hdown start e.start (Instant.le_def.2 ?_) hadmitted)
    rw [hoccurs.start, Instant.addSeconds?_eq_some_iff.1 hstart]
    omega
  | case7 days budget offset hday ih =>
    rw [ih (by omega) (by omega)]
    constructor
    · intro h
      obtain ⟨k, hk, hlt, hoccurs⟩ := h
      exact ⟨k, by omega, by omega, hoccurs⟩
    · intro h
      obtain ⟨k, hk, hlt, hoccurs, hadmitted⟩ := h
      refine ⟨k, ?_, by omega, hoccurs, hadmitted⟩
      have hne : k ≠ offset := by
        rintro rfl
        exact hday hoccurs.weekday
      omega

theorem occursAfter_iff {k : Nat} :
    OccursAfter template weekdays k e ↔
      e.start.date.number = template.start.date.number + k ∧ e.start.date.weekday ∈ weekdays ∧
        template.movedTo? (template.start.onSameTime e.start.date) = some e := by
  constructor
  · intro h
    obtain ⟨hsame, hdate⟩ := Instant.eq_onSameTime_iff.2 h.start
    refine ⟨hdate, ?_, (congrArg template.movedTo? hsame.symm).trans h.moved⟩
    rw [WeekdaySet.mem_def, Date.weekday, hdate]
    exact h.weekday
  · intro h
    obtain ⟨hdate, hday, hmoved⟩ := h
    have hsame := (Event.movedTo?_eq_some_iff.1 hmoved).1
    refine ⟨Instant.eq_onSameTime_iff.1 ⟨hsame, hdate⟩, ?_,
      (congrArg template.movedTo? hsame).trans hmoved⟩
    rw [WeekdaySet.mem_def, Date.weekday, hdate] at hday
    exact hday

def OnBefore (template : Event) (weekdays : WeekdaySet) (bound : Instant) (d : Date) : Prop :=
  template.start.date ≤ d ∧ d < Date.last ∧ d.weekday ∈ weekdays ∧
    template.start.onSameTime d < bound

theorem not_onBefore_of_limits? {d : Date} (hending : rule.ending = .before bound)
    (hnone : limits? template rule = none) : ¬ OnBefore template rule.weekdays bound d := by
  rintro ⟨-, -, hday, hbound⟩
  rw [limits?, hending] at hnone
  split at hnone
  · rename_i hempty
    have hbits : rule.weekdays = WeekdaySet.empty :=
      congrArg WeekdaySet.mk (by simpa [WeekdaySet.isEmpty] using hempty)
    rw [hbits] at hday
    exact WeekdaySet.not_mem_empty _ hday
  · exact Moment.not_secondBefore (Option.map_eq_none_iff.1 hnone)
      (Moment.secondBefore_coe.2 hbound)

theorem of_limits? {limits : (Instant → Bool) × Nat} (hending : rule.ending = .before bound)
    (h : limits? template rule = some limits) :
    (∀ t, limits.1 t = true ↔ t < bound) ∧ limits.2 = daysLeft template := by
  rw [limits?, hending] at h
  split at h
  · cases h
  · obtain ⟨last, hlast, rfl⟩ := Option.map_eq_some_iff.1 h
    refine ⟨fun t => ?_, rfl⟩
    rw [decide_eq_true_eq, Moment.le_iff_secondBefore hlast, Moment.secondBefore_coe]

theorem daysLeft_eq (template : Event) :
    (daysLeft template : Int) = Date.last.number - template.start.date.number := by
  have hdate := template.start.date.le_last
  simp only [daysLeft, Date.last]
  omega

theorem exists_offset_iff {d : Date} :
    (∃ k : Nat, k < daysLeft template ∧ d.number = template.start.date.number + k) ↔
      template.start.date ≤ d ∧ d < Date.last := by
  have hleft := daysLeft_eq template
  rw [Date.le_def, Date.lt_def]
  constructor
  · rintro ⟨k, hk, hdate⟩
    omega
  · intro h
    exact ⟨(d.number - template.start.date.number).toNat, by omega, by omega⟩

theorem mem_expand_iff (hending : rule.ending = .before bound)
    (hmoves : ∀ d, OnBefore template rule.weekdays bound d →
      ∃ e, template.movedTo? (template.start.onSameTime d) = some e) :
    e ∈ rule.expand template ↔
      OnBefore template rule.weekdays bound e.start.date ∧
        template.movedTo? (template.start.onSameTime e.start.date) = some e := by
  cases hlimits : limits? template rule with
  | none =>
    rw [expand, hlimits]
    exact iff_of_false List.not_mem_nil fun h => not_onBefore_of_limits? hending hlimits h.1
  | some limits =>
    obtain ⟨admits, budget⟩ := limits
    obtain ⟨hadmits, rfl⟩ := of_limits? hending hlimits
    have hleft := daysLeft_eq template
    rw [expand, hlimits, mem_walk_iff (Nat.le_refl _) (by omega)]
    · simp only [Nat.zero_le, true_and, Nat.zero_add, occursAfter_iff, hadmits]
      constructor
      · intro h
        obtain ⟨k, hk, ⟨hdate, hday, hmoved⟩, hlt⟩ := h
        have hsame := (Event.movedTo?_eq_some_iff.1 hmoved).1
        obtain ⟨hfirst, hend⟩ := exists_offset_iff.1 ⟨k, hk, hdate⟩
        exact ⟨⟨hfirst, hend, hday, hsame ▸ hlt⟩, hmoved⟩
      · intro h
        obtain ⟨⟨hfirst, hend, hday, hlt⟩, hmoved⟩ := h
        have hsame := (Event.movedTo?_eq_some_iff.1 hmoved).1
        obtain ⟨k, hk, hdate⟩ := exists_offset_iff.2 ⟨hfirst, hend⟩
        exact ⟨k, hk, ⟨hdate, hday, hmoved⟩, hsame ▸ hlt⟩
    · intro s t hst ht
      rw [hadmits, Instant.lt_def] at ht ⊢
      rw [Instant.le_def] at hst
      omega
    · intro k start hstart hk hday hadmitted
      obtain ⟨hsame, hdate⟩ := Instant.eq_onSameTime_iff.2 hstart
      rw [hadmits, hsame] at hadmitted
      rw [hsame]
      refine hmoves start.date ⟨Date.le_def.2 (by omega), Date.lt_def.2 (by omega), ?_, hadmitted⟩
      rw [WeekdaySet.mem_def, Date.weekday, hdate]
      exact hday

theorem oneEach_expand (hending : rule.ending = .before bound)
    (hmoves : ∀ d, OnBefore template rule.weekdays bound d →
      ∃ e, template.movedTo? (template.start.onSameTime d) = some e) :
    OneEach (OnBefore template rule.weekdays bound)
      (fun d e => template.movedTo? (template.start.onSameTime d) = some e)
      (rule.expand template) where
  ordered := by
    refine List.pairwise_map.2 ((pairwise_expand template rule).imp fun {e f} h => ?_)
    have he := e.start.number_eq
    have hf := f.start.number_eq
    have hlt := e.start.secondOfDay_lt
    have hlt' := f.start.secondOfDay_lt
    rw [Date.lt_def]
    omega
  mem_iff d := by
    rw [List.mem_map]
    constructor
    · intro h
      obtain ⟨e, he, rfl⟩ := h
      exact ((mem_expand_iff hending hmoves).1 he).1
    · intro h
      obtain ⟨e, he⟩ := hmoves d h
      have hdate : e.start.date = d := by
        rw [(Event.movedTo?_eq_some_iff.1 he).1, Instant.onSameTime, Instant.date_onDate]
      exact ⟨e, (mem_expand_iff hending hmoves).2 (by rw [hdate]; exact ⟨h, he⟩), hdate⟩
  made e he := ((mem_expand_iff hending hmoves).1 he).2

/-- One whole day on each date up to the last, the midnight after which is the bound. -/
theorem oneEach_expand_onDay {name : String} {first last : Date}
    (htemplate : Event.onDay name first = .ok template) (hending : rule.ending = .before bound)
    (hbound : (Instant.midnight last).addDays? 1 = some bound) :
    OneEach (fun d => first ≤ d ∧ d ≤ last ∧ d.weekday ∈ rule.weekdays)
      (fun d e => Event.onDay name d = .ok e) (rule.expand template) := by
  obtain ⟨hname, htname, hstart, -, hday, hdescription, hlocation, hpublic⟩ :=
    Event.onDay_eq_ok_iff.1 htemplate
  have hduration := Event.duration_of_onDay htemplate
  have hdate : template.start.date = first := by rw [hstart, Instant.midnight, Instant.date_onDate]
  have hmidnight : ∀ d, template.start.onSameTime d = Instant.midnight d := by
    intro d
    simp only [Instant.onSameTime, hstart, Instant.midnight, Instant.secondOfDay_onDate]
  have hnumber : ∀ d, (Instant.midnight d).number = 86400 * d.number := by
    intro d
    rw [Instant.midnight, Instant.number_onDate]
    omega
  have hnext : bound.number = 86400 * last.number + 86400 := by
    have h := Instant.addSeconds?_eq_some_iff.1 hbound
    rw [hnumber] at h
    omega
  have hon : ∀ d, OnBefore template rule.weekdays bound d ↔
      first ≤ d ∧ d ≤ last ∧ d.weekday ∈ rule.weekdays := by
    intro d
    have hend : d < Date.last ∧ Instant.midnight d < bound ↔ d ≤ last := by
      have hlast := bound.le_last
      rw [Date.lt_def, Date.le_def, Instant.lt_def, hnumber, hnext]
      simp only [Date.last]
      omega
    rw [OnBefore, hdate, hmidnight, ← hend]
    grind
  refine (oneEach_expand hending fun d hd => ?_).congr hon fun d e _ hmoved => ?_
  · have hlast := Date.le_def.1 ((hon d).1 hd).2.1
    have hfirst := d.first_le
    have hle := bound.le_last
    rw [Event.exists_movedTo?_iff, hmidnight, hduration]
    refine ⟨⟨86400 * d.number + 86400, by omega, by omega⟩, ?_⟩
    rw [Instant.addSeconds?_eq_some_iff, hnumber]
  · obtain ⟨hestart, hestop, hename, heday, hedescription, helocation, hepublic⟩ :=
      Event.movedTo?_eq_some_iff.1 hmoved
    rw [hmidnight] at hestart hestop
    rw [hduration, ← hestart] at hestop
    exact Event.onDay_eq_ok_iff.2 ⟨hname, hename.trans htname, hestart, hestop, heday.trans hday,
      hedescription.trans hdescription, helocation.trans hlocation, hepublic.trans hpublic⟩

end Rule
end Daybook
