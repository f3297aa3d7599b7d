import Daybook.Calendar.Instant

/-! Moments: instants to the nanosecond. -/
namespace Daybook

/-- A second and the nanoseconds since its beginning; in a leap second they go on past a thousand
million. -/
structure Moment where
  second : Instant
  nanos : Nat
  nanos_lt : nanos < 2000000000
  deriving DecidableEq, Repr

@[coe] def Instant.moment (t : Instant) : Moment := ⟨t, 0, by decide⟩

instance : Coe Instant Moment := ⟨Instant.moment⟩

/-- Whether an instant comes at least a second before a moment. -/
def Instant.SecondBefore (t : Instant) (u : Moment) : Prop :=
  1000000000 * (t.number + 1) ≤ 1000000000 * u.second.number + u.nanos

instance (t : Instant) (u : Moment) : Decidable (t.SecondBefore u) :=
  inferInstanceAs (Decidable (_ ≤ _))

namespace Moment
variable {s t : Instant} {u last : Moment}

instance : LE Moment :=
  ⟨fun u v => u.second < v.second ∨ u.second = v.second ∧ u.nanos ≤ v.nanos⟩
instance : LT Moment :=
  ⟨fun u v => u.second < v.second ∨ u.second = v.second ∧ u.nanos < v.nanos⟩
instance (u v : Moment) : Decidable (u ≤ v) := inferInstanceAs (Decidable (_ ∨ _ ∧ _))
instance (u v : Moment) : Decidable (u < v) := inferInstanceAs (Decidable (_ ∨ _ ∧ _))

def secondEarlier? (u : Moment) : Option Moment :=
  if 1000000000 ≤ u.nanos then
    some ⟨u.second, u.nanos - 1000000000, Nat.lt_of_le_of_lt (Nat.sub_le _ _) u.nanos_lt⟩
  else (u.second.addSeconds? (-1)).map fun second => ⟨second, u.nanos, u.nanos_lt⟩

@[simp] theorem second_coe (t : Instant) : (t : Moment).second = t := rfl

theorem coe_le_iff : (t : Moment) ≤ u ↔ t.number ≤ u.second.number := by
  change t.number < u.second.number ∨ t = u.second ∧ 0 ≤ u.nanos ↔ _
  constructor
  · rintro (h | ⟨rfl, -⟩) <;> omega
  · intro h
    obtain h | h := Int.lt_or_eq_of_le h
    · exact .inl h
    · exact .inr ⟨Instant.ext h, Nat.zero_le _⟩

theorem coe_lt_iff :
    (t : Moment) < u ↔ t.number < u.second.number ∨ t = u.second ∧ 0 < u.nanos := Iff.rfl

@[simp] theorem coe_lt_coe : (s : Moment) < t ↔ s < t := by
  rw [coe_lt_iff, Instant.lt_def]
  simp [Instant.moment]

@[simp] theorem secondBefore_coe : t.SecondBefore s ↔ t < s := by
  simp only [Instant.SecondBefore, Instant.moment, Instant.lt_def]
  omega

theorem lt_of_secondBefore (h : t.SecondBefore u) : (t : Moment) < u := by
  have hnanos := u.nanos_lt
  rw [Instant.SecondBefore] at h
  rw [coe_lt_iff]
  obtain hlt | heq := Int.lt_or_eq_of_le (show t.number ≤ u.second.number by omega)
  · exact .inl hlt
  · exact .inr ⟨Instant.ext heq, by omega⟩

theorem secondBefore_of_le (hst : s ≤ t) (h : t.SecondBefore u) : s.SecondBefore u := by
  rw [Instant.le_def] at hst
  rw [Instant.SecondBefore] at h ⊢
  omega

theorem le_iff_secondBefore (h : u.secondEarlier? = some last) :
    (t : Moment) ≤ last ↔ t.SecondBefore u := by
  have hnanos := u.nanos_lt
  rw [coe_le_iff, Instant.SecondBefore]
  rw [secondEarlier?] at h
  split at h
  · cases h
    simp only
    omega
  · obtain ⟨second, hsecond, rfl⟩ := Option.map_eq_some_iff.1 h
    rw [Instant.addSeconds?_eq_some_iff.1 hsecond]
    omega

theorem not_secondBefore (h : u.secondEarlier? = none) : ¬ t.SecondBefore u := by
  intro hbefore
  have hfirst := t.first_le
  have hlast := u.second.le_last
  rw [Instant.SecondBefore] at hbefore
  rw [secondEarlier?] at h
  split at h
  · cases h
  · rw [Option.map_eq_none_iff, Instant.addSeconds?, Instant.ofNumber?, dif_pos (by omega)] at h
    cases h

end Moment
end Daybook
