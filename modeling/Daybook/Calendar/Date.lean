/-!
Dates of the proleptic Gregorian calendar as day numbers, and their year, month and day.
Day 0 is Monday, January 1 of year 1. Main statement: a date is found again from its year, month
and day.
-/
namespace Daybook

structure Civil where
  year : Int
  month : Nat
  day : Nat
  deriving DecidableEq, Repr

namespace Civil

def isLeap (year : Int) : Bool :=
  year % 4 == 0 && (year % 100 != 0 || year % 400 == 0)

def monthLengths (year : Int) : List Nat :=
  [31, if isLeap year then 29 else 28, 31, 30, 31, 30, 31, 31, 30, 31, 30, 31]

def totalDays : List Nat → Nat
  | [] => 0
  | len :: rest => len + totalDays rest

def yearStart (year : Int) : Int :=
  365 * (year - 1) + (year - 1) / 4 - (year - 1) / 100 + (year - 1) / 400

/-- The year of a day: a guess by the mean length of a year, which is off by one at most. -/
def yearOf (number : Int) : Int :=
  let guess := 400 * number / 146097 + 1
  if number < yearStart guess then guess - 1
  else if yearStart (guess + 1) ≤ number then guess + 1
  else guess

def splitMonths : List Nat → Nat → Nat × Nat
  | [], day => (0, day)
  | len :: rest, day =>
    if day < len then (0, day)
    else
      let (months, day) := splitMonths rest (day - len)
      (months + 1, day)

def ofNumber (number : Int) : Civil :=
  let year := yearOf number
  let (months, day) := splitMonths (monthLengths year) (number - yearStart year).toNat
  ⟨year, months + 1, day + 1⟩

def number (c : Civil) : Int :=
  yearStart c.year + totalDays ((monthLengths c.year).take (c.month - 1)) + (c.day - 1 : Nat)

def IsDay (c : Civil) : Prop :=
  1 ≤ c.month ∧ c.month ≤ 12 ∧ 1 ≤ c.day ∧ c.day ≤ (monthLengths c.year)[c.month - 1]?.getD 0

instance (c : Civil) : Decidable c.IsDay := by unfold IsDay; infer_instance

theorem yearStart_succ (year : Int) :
    yearStart (year + 1) = yearStart year + if isLeap year then 366 else 365 := by
  have h₄ : (year + 1 - 1) / 4 = (year - 1) / 4 + if year % 4 = 0 then 1 else 0 := by
    split <;> omega
  have h₁₀₀ : (year + 1 - 1) / 100 = (year - 1) / 100 + if year % 100 = 0 then 1 else 0 := by
    split <;> omega
  have h₄₀₀ : (year + 1 - 1) / 400 = (year - 1) / 400 + if year % 400 = 0 then 1 else 0 := by
    split <;> omega
  simp only [yearStart, isLeap, h₄, h₁₀₀, h₄₀₀, Bool.and_eq_true, beq_iff_eq, Bool.or_eq_true,
    bne_iff_ne]
  split <;> split <;> split <;> split <;> omega

theorem yearStart_yearOf_le (n : Int) : yearStart (yearOf n) ≤ n := by
  simp only [yearOf]
  split
  · simp only [yearStart] at *; omega
  · split <;> omega

theorem lt_yearStart_yearOf (n : Int) : n < yearStart (yearOf n + 1) := by
  simp only [yearOf]
  split
  · simp only [yearStart] at *; omega
  · split
    · simp only [yearStart] at *; omega
    · omega

theorem totalDays_monthLengths (year : Int) :
    (totalDays (monthLengths year) : Int) = if isLeap year then 366 else 365 := by
  cases h : isLeap year <;> simp [monthLengths, totalDays, h]

theorem splitMonths_sound {lens : List Nat} {day : Nat} (h : day < totalDays lens) :
    (splitMonths lens day).1 < lens.length ∧
    (splitMonths lens day).2 < lens[(splitMonths lens day).1]?.getD 0 ∧
    totalDays (lens.take (splitMonths lens day).1) + (splitMonths lens day).2 = day := by
  induction lens generalizing day with
  | nil => simp [totalDays] at h
  | cons len rest ih =>
    simp only [totalDays] at h
    by_cases hd : day < len
    · simp [splitMonths, totalDays, hd]
    · have := @ih (day - len) (by omega)
      simp only [splitMonths, hd, if_false]
      refine ⟨by simp; omega, by simpa using this.2.1, ?_⟩
      simp only [List.take_succ_cons, totalDays]
      omega

theorem isDay_ofNumber (n : Int) : (ofNumber n).IsDay := by
  have h₁ := yearStart_yearOf_le n
  have h₂ := lt_yearStart_yearOf n
  rw [yearStart_succ, ← totalDays_monthLengths] at h₂
  have h := @splitMonths_sound (monthLengths (yearOf n)) (n - yearStart (yearOf n)).toNat (by omega)
  have hlen : (monthLengths (yearOf n)).length = 12 := rfl
  simp only [IsDay, ofNumber, Nat.add_sub_cancel]
  omega

theorem number_ofNumber (n : Int) : (ofNumber n).number = n := by
  have h₁ := yearStart_yearOf_le n
  have h₂ := lt_yearStart_yearOf n
  rw [yearStart_succ, ← totalDays_monthLengths] at h₂
  have h := @splitMonths_sound (monthLengths (yearOf n)) (n - yearStart (yearOf n)).toNat (by omega)
  simp only [number, ofNumber, Nat.add_sub_cancel]
  omega

end Civil
structure Date where
  number : Int
  first_le : -95746130 ≤ number
  le_last : number ≤ 95745398
  deriving DecidableEq, Repr

namespace Date

def last : Date := ⟨95745398, by decide, by decide⟩

theorem ext {d e : Date} (h : d.number = e.number) : d = e := by
  cases d; cases e; simp_all

instance : LE Date := ⟨fun d e => d.number ≤ e.number⟩
instance : LT Date := ⟨fun d e => d.number < e.number⟩
instance (d e : Date) : Decidable (d ≤ e) := inferInstanceAs (Decidable (d.number ≤ e.number))
instance (d e : Date) : Decidable (d < e) := inferInstanceAs (Decidable (d.number < e.number))

theorem le_def {d e : Date} : d ≤ e ↔ d.number ≤ e.number := Iff.rfl
theorem lt_def {d e : Date} : d < e ↔ d.number < e.number := Iff.rfl

def ofNumber? (n : Int) : Option Date :=
  if h : -95746130 ≤ n ∧ n ≤ 95745398 then some ⟨n, h.1, h.2⟩ else none

def civil (d : Date) : Civil := Civil.ofNumber d.number

def ofCivil? (c : Civil) : Option Date :=
  if c.IsDay then ofNumber? c.number else none

def addDays? (d : Date) (n : Int) : Option Date := ofNumber? (d.number + n)

@[simp] theorem ofNumber?_number (d : Date) : ofNumber? d.number = some d := by
  simp [ofNumber?, d.first_le, d.le_last]

@[simp] theorem ofCivil?_civil (d : Date) : ofCivil? d.civil = some d := by
  simp [ofCivil?, civil, Civil.isDay_ofNumber, Civil.number_ofNumber]

end Date
end Daybook
