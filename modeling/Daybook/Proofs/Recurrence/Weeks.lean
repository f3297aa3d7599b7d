import Mathlib.Data.List.Nodup
import Mathlib.Data.List.Perm.Subperm
import Daybook.Proofs.Recurrence.Series

/-!
Weeks of a series. Main statement: as many occurrences as there are weekdays in the set fall on each
of them once, and so many occurrences later it is the same time seven days later.
-/
namespace Daybook

theorem Date.weekdayOf_add_seven (n : Int) : weekdayOf (n + 7) = weekdayOf n := by
  have hindex := index_weekdayOf (n + 7)
  rw [Int.add_emod_right, ← index_weekdayOf n] at hindex
  exact Weekday.index_injective (Int.ofNat.inj hindex)

namespace WeekdaySet

theorem countP_all_eq_countP_range (s : WeekdaySet) :
    Weekday.all.countP s.contains = (List.range 7).countP s.bits.getLsbD := by
  have hindex : List.range 7 = Weekday.all.map Weekday.index := rfl
  rw [hindex, List.countP_map]
  rfl

/-- The size of a set is the number of its bits that are one. -/
theorem size_eq_toNat_cpop (s : WeekdaySet) : s.size = s.bits.cpop.toNat := by
  have hbits : ∀ n, s.bits.cpopNatRec n 0 = (List.range n).countP s.bits.getLsbD := by
    intro n
    induction n with
    | zero => rfl
    | succ n ih =>
      rw [BitVec.cpopNatRec_succ, BitVec.cpopNatRec_eq, ih, List.range_succ, List.countP_append]
      cases h : s.bits.getLsbD n <;> simp [h]
  rw [BitVec.toNat_cpop, hbits, ← countP_all_eq_countP_range, size, toList,
    List.countP_eq_length_filter]

end WeekdaySet

theorem getElem?_of_isPrefix {α : Type} {xs ys : List α} {i : Nat} {a : α} (h : xs <+: ys)
    (ha : xs[i]? = some a) : ys[i]? = some a := by
  obtain ⟨hi, rfl⟩ := List.getElem?_eq_some_iff.1 ha
  exact List.prefix_iff_getElem?.1 h i hi

namespace Rule
variable {template e f : Event} {weekdays : WeekdaySet} {rule : Rule} {i k : Nat}

def weekdayAfter (template : Event) (k : Nat) : Weekday :=
  Date.weekdayOf (template.start.date.number + k)

theorem falls_eq_comp (template : Event) (weekdays : WeekdaySet) :
    falls template weekdays = weekdays.contains ∘ weekdayAfter template := rfl

theorem falls_add_seven (template : Event) (weekdays : WeekdaySet) (k : Nat) :
    falls template weekdays (k + 7) = falls template weekdays k := by
  have hweek := Date.weekdayOf_add_seven (template.start.date.number + k)
  rw [Int.add_assoc] at hweek
  exact congrArg weekdays.contains hweek

/-- Seven days in a row fall on different weekdays, so on all of them. -/
theorem weekdayAfter_perm_all (template : Event) (k : Nat) :
    ((List.range' k 7).map (weekdayAfter template)).Perm Weekday.all := by
  have hnodup : ((List.range' k 7).map (weekdayAfter template)).Nodup := by
    refine List.Nodup.map_on (fun i hi j hj hsame => ?_) List.nodup_range'
    rw [List.mem_range'_1] at hi hj
    have hi' := Date.index_weekdayOf (template.start.date.number + i)
    have hj' := Date.index_weekdayOf (template.start.date.number + j)
    rw [weekdayAfter, weekdayAfter] at hsame
    rw [hsame, hj'] at hi'
    omega
  have hsubset : (List.range' k 7).map (weekdayAfter template) ⊆ Weekday.all :=
    fun d _ => d.mem_all
  exact (List.subperm_of_subset hnodup hsubset).perm_of_length_le (by simp [Weekday.all])

def daysIn (template : Event) (weekdays : WeekdaySet) (k n : Nat) : List Nat :=
  (List.range' k n).filter (falls template weekdays)

theorem offsets_eq_daysIn (template : Event) (weekdays : WeekdaySet) :
    offsets template weekdays = daysIn template weekdays 0 (daysLeft template) := by
  rw [offsets, daysIn, List.range_eq_range']

theorem daysIn_add (k m n : Nat) :
    daysIn template weekdays k (m + n) =
      daysIn template weekdays k m ++ daysIn template weekdays (k + m) n := by
  rw [daysIn, ← List.range'_append_1, List.filter_append]
  rfl

theorem daysIn_isPrefix {m n : Nat} (h : m ≤ n) :
    daysIn template weekdays k m <+: daysIn template weekdays k n := by
  obtain ⟨r, rfl⟩ := Nat.exists_eq_add_of_le h
  rw [daysIn_add]
  exact List.prefix_append _ _

theorem daysIn_add_seven (k n : Nat) :
    daysIn template weekdays (k + 7) n = (daysIn template weekdays k n).map (· + 7) := by
  have hshift : List.range' (k + 7) n = (List.range' k n).map (· + 7) := by
    rw [Nat.add_comm, ← List.map_add_range']
    exact List.map_congr_left fun j _ => Nat.add_comm 7 j
  have hfalls : falls template weekdays ∘ (· + 7) = falls template weekdays :=
    funext (falls_add_seven template weekdays)
  rw [daysIn, hshift, List.filter_map, hfalls]
  rfl

theorem week_perm_toList (template : Event) (weekdays : WeekdaySet) (k : Nat) :
    ((daysIn template weekdays k 7).map (weekdayAfter template)).Perm weekdays.toList := by
  rw [daysIn, falls_eq_comp, ← List.filter_map]
  exact (weekdayAfter_perm_all template k).filter _

theorem length_week (template : Event) (weekdays : WeekdaySet) (k : Nat) :
    (daysIn template weekdays k 7).length = weekdays.size := by
  have hlength := (week_perm_toList template weekdays k).length_eq
  rwa [List.length_map] at hlength

theorem take_daysIn {n : Nat} (h : weekdays.size ≤ (daysIn template weekdays k n).length) :
    (daysIn template weekdays k n).take weekdays.size = daysIn template weekdays k 7 := by
  rw [← length_week template weekdays k] at h ⊢
  rcases Nat.le_total 7 n with hn | hn
  · exact (List.prefix_iff_eq_take.1 (daysIn_isPrefix hn)).symm
  · rw [(daysIn_isPrefix hn).eq_of_length_le h, List.take_length]

/-- The days of the set after so many of them are the first ones, seven days later. -/
theorem drop_daysIn_isPrefix (template : Event) (weekdays : WeekdaySet) (k n : Nat) :
    (daysIn template weekdays k n).drop weekdays.size <+:
      (daysIn template weekdays k n).map (· + 7) := by
  rw [← length_week template weekdays k]
  rcases Nat.le_total 7 n with hn | hn
  · obtain ⟨r, rfl⟩ := Nat.exists_eq_add_of_le hn
    have hrest : (daysIn template weekdays k (7 + r)).drop (daysIn template weekdays k 7).length =
        (daysIn template weekdays k r).map (· + 7) := by
      rw [daysIn_add, List.drop_left, daysIn_add_seven]
    rw [hrest]
    exact (daysIn_isPrefix (Nat.le_add_left r 7)).map _
  · rw [List.drop_of_length_le (daysIn_isPrefix hn).length_le]
    exact List.nil_prefix

theorem weekdays_perm_toList (h : i + weekdays.size ≤ (offsets template weekdays).length) :
    ((((offsets template weekdays).drop i).take weekdays.size).map (weekdayAfter template)).Perm
      weekdays.toList := by
  have hsplit := List.take_append_drop i (offsets template weekdays)
  obtain ⟨before, after, hrange, -, hafter⟩ := List.filter_eq_append_iff.1 hsplit.symm
  rw [List.range_eq_range'] at hrange
  obtain ⟨j, -, -, rfl⟩ := List.range'_eq_append_iff.1 hrange
  change daysIn template weekdays (0 + j * 1) (daysLeft template - j) = _ at hafter
  rw [← hafter, take_daysIn]
  · exact week_perm_toList _ _ _
  · rw [hafter, List.length_drop]
    omega

theorem getElem?_offsets_add_size {j : Nat} (hi : (offsets template weekdays)[i]? = some j)
    (hk : (offsets template weekdays)[i + weekdays.size]? = some k) : k = j + 7 := by
  have hweek := drop_daysIn_isPrefix template weekdays 0 (daysLeft template)
  rw [← offsets_eq_daysIn] at hweek
  rw [Nat.add_comm, ← List.getElem?_drop] at hk
  have hlater := getElem?_of_isPrefix hweek hk
  rw [List.getElem?_map, hi] at hlater
  exact (Option.some.inj hlater).symm

/-- The first day of the set is in the first week. -/
theorem lt_seven_of_getElem?_zero (h : (offsets template weekdays)[0]? = some k) : k < 7 := by
  obtain ⟨rest, hrest⟩ := List.head?_eq_some_iff.1 (List.head?_eq_getElem?.trans h)
  have hordered : (offsets template weekdays).Pairwise (· < ·) :=
    List.pairwise_lt_range.filter _
  have hk : k ∈ offsets template weekdays := hrest ▸ List.mem_cons_self
  rw [hrest] at hordered
  refine Nat.lt_of_not_le fun hseven => ?_
  -- else the same weekday of the week before would come first
  obtain ⟨j, rfl⟩ := Nat.exists_eq_add_of_le' hseven
  rw [offsets, List.mem_filter, List.mem_range, falls_add_seven] at hk
  have hj : j ∈ offsets template weekdays :=
    List.mem_filter.2 ⟨List.mem_range.2 (by omega), hk.2⟩
  rw [hrest] at hj
  obtain hj | hj := List.mem_cons.1 hj
  · omega
  · have hlt := (List.pairwise_cons.1 hordered).1 j hj
    omega

theorem start_of_later? (h : later? template k = some e) :
    e.start.number = template.start.number + 86400 * k := by
  obtain ⟨start, hstart, hmoved⟩ := Option.bind_eq_some_iff.1 h
  rw [(Event.movedTo?_eq_some_iff.1 hmoved).1]
  exact Instant.addSeconds?_eq_some_iff.1 hstart

theorem weekday_of_later? (h : later? template k = some e) :
    e.start.weekday = weekdayAfter template k := by
  have hdate : e.start.date.number = template.start.date.number + k := by
    have hstart := start_of_later? h
    simp only [Instant.date]
    omega
  exact congrArg Date.weekdayOf hdate

theorem exists_getElem?_offsets (h : (rule.expand template)[i]? = some e) :
    ∃ k, (offsets template rule.weekdays)[i]? = some k ∧ later? template k = some e := by
  obtain ⟨ks, hks, hexpand⟩ := exists_offsets template rule
  have hsome : ((rule.expand template).map some)[i]? = some (some e) := by
    rw [List.getElem?_map, h]
    rfl
  rw [hexpand, List.getElem?_map] at hsome
  obtain ⟨k, hk, hlater⟩ := Option.map_eq_some_iff.1 hsome
  exact ⟨k, getElem?_of_isPrefix hks hk, hlater⟩

theorem map_weekday_expand (template : Event) (rule : Rule) :
    ((rule.expand template).map (·.start.weekday)) <+:
      (offsets template rule.weekdays).map (weekdayAfter template) := by
  refine List.prefix_iff_getElem?.2 fun i hi => ?_
  rw [List.length_map] at hi
  obtain ⟨k, hk, hlater⟩ := exists_getElem?_offsets (List.getElem?_eq_getElem hi)
  rw [List.getElem?_map, hk, List.getElem_map, weekday_of_later? hlater]
  rfl

theorem map_weekday_perm_toList
    (h : i + rule.weekdays.size ≤ (rule.expand template).length) :
    ((((rule.expand template).drop i).take rule.weekdays.size).map (·.start.weekday)).Perm
      rule.weekdays.toList := by
  obtain ⟨rest, hrest⟩ := map_weekday_expand template rule
  have hlength := congrArg List.length hrest
  simp only [List.length_append, List.length_map] at hlength
  have hsame : (((rule.expand template).drop i).take rule.weekdays.size).map (·.start.weekday) =
      (((offsets template rule.weekdays).drop i).take rule.weekdays.size).map
        (weekdayAfter template) := by
    rw [List.map_take, List.map_drop, List.map_take, List.map_drop, ← hrest,
      List.drop_append_of_le_length (by rw [List.length_map]; omega),
      List.take_append_of_le_length (by rw [List.length_drop, List.length_map]; omega)]
  rw [hsame]
  exact weekdays_perm_toList (by omega)

/-- The size of a set is the number of its bits. So many occurrences later, the start is seven days
later. The first occurrence starts at the template's start or less than seven days after it. So
many occurrences in a row fall on the weekdays of the set, on each of them once. -/
theorem expand_weekly (template : Event) (rule : Rule) :
    rule.weekdays.size = rule.weekdays.bits.cpop.toNat ∧
      (∀ i e f, (rule.expand template)[i]? = some e →
        (rule.expand template)[i + rule.weekdays.size]? = some f →
          e.start.addDays? 7 = some f.start) ∧
      (∀ e, (rule.expand template)[0]? = some e → template.start ≤ e.start ∧
        e.start.number < template.start.number + 86400 * 7) ∧
      ∀ i, i + rule.weekdays.size ≤ (rule.expand template).length →
        ((((rule.expand template).drop i).take rule.weekdays.size).map (·.start.weekday)).Perm
          rule.weekdays.toList := by
  refine ⟨rule.weekdays.size_eq_toNat_cpop, fun i e f he hf => ?_, fun e he => ?_,
    fun i => map_weekday_perm_toList⟩
  · obtain ⟨j, hj, hjlater⟩ := exists_getElem?_offsets he
    obtain ⟨k, hk, hklater⟩ := exists_getElem?_offsets hf
    obtain rfl := getElem?_offsets_add_size hj hk
    have hestart := start_of_later? hjlater
    have hfstart := start_of_later? hklater
    refine Instant.addSeconds?_eq_some_iff.2 ?_
    omega
  · obtain ⟨k, hk, hlater⟩ := exists_getElem?_offsets he
    have hweek := lt_seven_of_getElem?_zero hk
    have hstart := start_of_later? hlater
    rw [Instant.le_def]
    omega

def training : Event :=
  ⟨"Training", ⟨63850788000, by decide, by decide⟩, ⟨63850791600, by decide, by decide⟩, false, "",
    "", true, by decide⟩

def trainingRule : Rule := ⟨⟨0x2A#7⟩, .count ⟨5, by decide⟩⟩

theorem expand_weekly_training :
    ∃ e f, (trainingRule.expand training)[1]? = some e ∧
      (trainingRule.expand training)[4]? = some f ∧ e.start.addDays? 7 = some f.start ∧
      ((((trainingRule.expand training).drop 2).take 3).map (·.start.weekday)).Perm
        trainingRule.weekdays.toList := by
  have hsize : trainingRule.weekdays.size = 3 := by decide +kernel
  have hlength : (trainingRule.expand training).length = 5 := by decide +kernel
  obtain ⟨-, hlater, -, hweek⟩ := expand_weekly training trainingRule
  rw [hsize] at hlater hweek
  have he := List.getElem?_eq_getElem (l := trainingRule.expand training) (i := 1) (by omega)
  have hf := List.getElem?_eq_getElem (l := trainingRule.expand training) (i := 4) (by omega)
  exact ⟨_, _, he, hf, hlater 1 _ _ he hf, hweek 2 (by omega)⟩

end Rule
end Daybook
