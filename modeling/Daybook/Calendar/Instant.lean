import Daybook.Calendar.Weekday

/-! Instants: whole seconds of the representable dates, counted from the start of day 0. -/
namespace Daybook

structure Instant where
  number : Int
  first_le : -8272465632000 ≤ number
  le_last : number ≤ 8272402473599
  deriving DecidableEq, Repr

namespace Instant

theorem ext {s t : Instant} (h : s.number = t.number) : s = t := by
  cases s; cases t; simp_all

instance : LE Instant := ⟨fun s t => s.number ≤ t.number⟩
instance : LT Instant := ⟨fun s t => s.number < t.number⟩
instance (s t : Instant) : Decidable (s ≤ t) := inferInstanceAs (Decidable (s.number ≤ t.number))
instance (s t : Instant) : Decidable (s < t) := inferInstanceAs (Decidable (s.number < t.number))

theorem le_def {s t : Instant} : s ≤ t ↔ s.number ≤ t.number := Iff.rfl
theorem lt_def {s t : Instant} : s < t ↔ s.number < t.number := Iff.rfl

def ofNumber? (n : Int) : Option Instant :=
  if h : -8272465632000 ≤ n ∧ n ≤ 8272402473599 then some ⟨n, h.1, h.2⟩ else none

def addSeconds? (t : Instant) (n : Int) : Option Instant := ofNumber? (t.number + n)

def addDays? (t : Instant) (n : Int) : Option Instant := t.addSeconds? (86400 * n)

def date (t : Instant) : Date :=
  ⟨t.number / 86400, by have := t.first_le; omega, by have := t.le_last; omega⟩

def secondOfDay (t : Instant) : Nat := (t.number % 86400).toNat

def hour (t : Instant) : Nat := t.secondOfDay / 3600
def minute (t : Instant) : Nat := t.secondOfDay / 60 % 60
def secondOfMinute (t : Instant) : Nat := t.secondOfDay % 60

def weekday (t : Instant) : Weekday := t.date.weekday

def onDate (d : Date) (s : Nat) (h : s < 86400) : Instant :=
  ⟨86400 * d.number + s, by have := d.first_le; omega, by have := d.le_last; omega⟩

def midnight (d : Date) : Instant := Instant.onDate d 0 (by decide)

def atClock? (d : Date) (hour minute second : Nat) : Option Instant :=
  if h : hour < 24 ∧ minute < 60 ∧ second < 60 then
    some (Instant.onDate d (3600 * hour + 60 * minute + second) (by omega))
  else none

def OnMinute (t : Instant) : Prop := t.number % 60 = 0

instance (t : Instant) : Decidable t.OnMinute := inferInstanceAs (Decidable (_ = _))

theorem addSeconds?_eq_some_iff {s t : Instant} {n : Int} :
    s.addSeconds? n = some t ↔ t.number = s.number + n := by
  simp only [addSeconds?, ofNumber?]
  constructor
  · intro h
    split at h <;> cases h
    rfl
  · intro h
    rw [dif_pos ⟨by have := t.first_le; omega, by have := t.le_last; omega⟩]
    exact congrArg some (ext h.symm)

theorem lt_of_addSeconds? {s t : Instant} {n : Int} (h : s.addSeconds? n = some t) (hn : 0 < n) :
    s < t := by
  rw [addSeconds?_eq_some_iff] at h
  rw [lt_def]; omega

theorem secondOfDay_lt (t : Instant) : t.secondOfDay < 86400 := by
  simp only [secondOfDay]; omega

theorem onDate_date_secondOfDay (t : Instant) : Instant.onDate t.date t.secondOfDay t.secondOfDay_lt = t := by
  apply ext
  simp only [Instant.onDate, date, secondOfDay]
  omega

@[simp] theorem date_onDate (d : Date) (s : Nat) (h : s < 86400) : (Instant.onDate d s h).date = d := by
  apply Date.ext
  simp only [Instant.onDate, date]
  omega

@[simp] theorem secondOfDay_onDate (d : Date) (s : Nat) (h : s < 86400) :
    (Instant.onDate d s h).secondOfDay = s := by
  simp only [Instant.onDate, secondOfDay]
  omega

theorem atClock?_of_onMinute {t : Instant} (h : t.OnMinute) :
    atClock? t.date t.hour t.minute 0 = some t := by
  have hlt := t.secondOfDay_lt
  have hm : t.secondOfDay % 60 = 0 := by
    simp only [OnMinute, secondOfDay] at *; omega
  have hs : 3600 * t.hour + 60 * t.minute + 0 = t.secondOfDay := by
    simp only [hour, minute]; omega
  have hc : t.hour < 24 ∧ t.minute < 60 ∧ 0 < 60 := by
    simp only [hour, minute]; omega
  simp only [atClock?, hc, and_self, dif_pos, Option.some.injEq]
  calc Instant.onDate t.date (3600 * t.hour + 60 * t.minute + 0) _
      = Instant.onDate t.date t.secondOfDay t.secondOfDay_lt := by simp only [hs]
    _ = t := t.onDate_date_secondOfDay

end Instant
end Daybook
