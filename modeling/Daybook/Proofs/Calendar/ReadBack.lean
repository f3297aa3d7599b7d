import Daybook.Calendar.Literal
import Daybook.Calendar.Written
import Daybook.Proofs.Results

/-!
Written dates and instants are read back as they were, for every year of the calendar. Those for
which there is no reader, with slashes and on a clock of twelve hours, are told apart.
-/
namespace Daybook
open Decimal

theorem Decimal.padded_ne_nil (width n : Nat) : padded width n ≠ [] := by
  intro h
  have hlen := congrArg List.length h
  have hpos := @Nat.length_toDigits_pos 10 n
  simp only [padded, digits, List.length_append, List.length_nil] at hlen
  omega

theorem Decimal.padded_inj {width m n : Nat} : padded width m = padded width n ↔ m = n :=
  ⟨fun h => by simpa using congrArg value h, fun h => by rw [h]⟩

/-- Two runs of characters of one kind are told from what follows them, which is of no such kind. -/
theorem append_inj_of_all {p : Char → Bool} {cs ds xs ys : List Char} (hcs : ∀ c ∈ cs, p c = true)
    (hds : ∀ c ∈ ds, p c = true) (hxs : ∀ x ∈ xs.head?, p x = false)
    (hys : ∀ y ∈ ys.head?, p y = false) (h : cs ++ xs = ds ++ ys) : cs = ds ∧ xs = ys := by
  have htake : ∀ {cs xs : List Char}, (∀ c ∈ cs, p c = true) → (∀ x ∈ xs.head?, p x = false) →
      (cs ++ xs).takeWhile p = cs := by
    intro cs xs hcs hxs
    rw [List.takeWhile_append_of_pos hcs]
    cases xs with
    | nil => simp
    | cons x xs => simp [hxs x rfl]
  have hfront : cs = ds := by rw [← htake hcs hxs, h, htake hds hys]
  exact ⟨hfront, List.append_cancel_left (hfront ▸ h)⟩

theorem Decimal.padded_append_inj {width m n : Nat} {c : Char} (hc : c.isDigit = false)
    {cs ds : List Char} (h : padded width m ++ c :: cs = padded width n ++ c :: ds) :
    m = n ∧ cs = ds := by
  have hstop : ∀ cs : List Char, ∀ d ∈ (c :: cs).head?, d.isDigit = false := by
    simpa using hc
  obtain ⟨hnumber, hrest⟩ := append_inj_of_all (fun _ => isDigit_of_mem_padded)
    (fun _ => isDigit_of_mem_padded) (hstop cs) (hstop ds) h
  exact ⟨padded_inj.1 hnumber, (List.cons.inj hrest).2⟩

theorem isBlank_of_isDigit {c : Char} (h : c.isDigit = true) : isBlank c = false := by
  simp only [Char.isDigit, Bool.and_eq_true, decide_eq_true_eq] at h
  have h1 : 48 ≤ c.toNat := h.1
  have h2 : c.toNat ≤ 57 := h.2
  simp only [isBlank, Bool.or_eq_false_iff, Bool.and_eq_false_iff, decide_eq_false_iff_not,
    beq_eq_false_iff_ne]
  omega

namespace Literal

theorem dropWhile_isBlank_padded (width n : Nat) (rest : List Char) :
    (padded width n ++ rest).dropWhile isBlank = padded width n ++ rest := by
  cases h : padded width n with
  | nil => exact absurd h (padded_ne_nil width n)
  | cons c cs =>
    have hc : c.isDigit = true := isDigit_of_mem_padded (h ▸ List.mem_cons_self)
    simp [isBlank_of_isDigit hc]

theorem takeWhile_isDigit_padded (width n : Nat) (rest : List Char) :
    (padded width n ++ rest).takeWhile Char.isDigit =
      padded width n ++ rest.takeWhile Char.isDigit :=
  List.takeWhile_append_of_pos fun _ hd => isDigit_of_mem_padded hd

/-- A number without a width ends where the digits end. -/
theorem number_none_padded (width n : Nat) {c : Char} (hc : c.isDigit = false) (rest : List Char) :
    number none (padded width n ++ c :: rest) = .ok (n, c :: rest) := by
  have hds := takeWhile_isDigit_padded width n (c :: rest)
  simp only [List.takeWhile_cons, hc, Bool.false_eq_true, if_false, List.append_nil] at hds
  have hne := padded_ne_nil width n
  cases h : padded width n ++ c :: rest with
  | nil => simp at h
  | cons d ds =>
    rw [h] at hds
    simp only [number, hds, List.isEmpty_iff, hne, if_false, value_padded]
    rw [← h, List.drop_left]

/-- A number of as many digits as are looked at may be followed by anything. -/
theorem number_some_padded {width n : Nat} (h : (digits n).length ≤ width) (rest : List Char) :
    number (some width) (padded width n ++ rest) = .ok (n, rest) := by
  have hlen := length_padded h
  have hds := takeWhile_isDigit_padded width n []
  simp only [List.append_nil, List.takeWhile_nil] at hds
  have htake : (padded width n ++ rest).take width = padded width n := List.take_left' hlen
  have hne := padded_ne_nil width n
  cases hcs : padded width n ++ rest with
  | nil => simp [hne] at hcs
  | cons d ds =>
    rw [hcs] at htake
    simp only [number, htake, hds, List.isEmpty_iff, hne, if_false, value_padded]
    rw [← hcs, List.drop_left]

theorem within_padded {lo hi n : Nat} (hlo : lo ≤ n) (hhi : n ≤ hi) (h : hi < 100)
    (rest : List Char) : within lo hi (padded 2 n ++ rest) = .ok (n, rest) := by
  have hdigits : (digits n).length ≤ 2 :=
    (Nat.length_toDigits_le_iff (by decide) (by decide)).2 (by omega)
  rw [within, dropWhile_isBlank_padded, number_some_padded hdigits]
  simp [bind, Except.bind, hlo, hhi]

theorem yearDigits_of_isDigit {c : Char} (h : c.isDigit = true) (cs : List Char) :
    yearDigits (c :: cs) = (number (some 4) (c :: cs)).map fun r => ((r.1 : Int), r.2) := by
  unfold yearDigits
  split
  · simp_all
  · simp_all
  · rfl

theorem year_yearChars {y : Int} (hlo : -2147483648 ≤ y) (hhi : y ≤ 2147483647)
    (rest : List Char) : year (Civil.yearChars y ++ '-' :: rest) = .ok (y, '-' :: rest) := by
  have hyear : yearDigits ((Civil.yearChars y ++ '-' :: rest).dropWhile isBlank) =
      .ok (y, '-' :: rest) := by
    unfold Civil.yearChars
    split
    · rename_i hneg
      have habs : -(y.natAbs : Int) = y := by omega
      generalize y.natAbs = n at habs
      simp [isBlank, yearDigits, number_none_padded 4 n (by decide : '-'.isDigit = false),
        Except.map, habs]
    · split
      · rename_i hpos
        have habs : (y.natAbs : Int) = y := by omega
        generalize y.natAbs = n at habs
        simp [isBlank, yearDigits, number_none_padded 4 n (by decide : '-'.isDigit = false),
          Except.map, habs]
      · have habs : (y.natAbs : Int) = y := by omega
        have hdigits : (digits y.natAbs).length ≤ 4 :=
          (Nat.length_toDigits_le_iff (by decide) (by decide)).2 (by omega)
        have hnum := number_some_padded hdigits ('-' :: rest)
        rw [dropWhile_isBlank_padded]
        cases h : padded 4 y.natAbs with
        | nil => exact absurd h (padded_ne_nil 4 _)
        | cons c cs =>
          have hc : c.isDigit = true := isDigit_of_mem_padded (h ▸ List.mem_cons_self)
          rw [h] at hnum
          rw [List.cons_append, yearDigits_of_isDigit hc, ← List.cons_append, hnum]
          simp [Except.map, habs]
  rw [year, hyear]
  simp [bind, Except.bind, hlo, hhi]

end Literal

theorem Civil.mem_yearChars {year : Int} {c : Char} (h : c ∈ yearChars year) :
    c.isDigit = true ∨ c = '-' ∨ c = '+' := by
  unfold yearChars at h
  split at h
  · exact (List.mem_cons.1 h).elim (fun h => .inr (.inl h)) fun h => .inl (isDigit_of_mem_padded h)
  · split at h
    · exact (List.mem_cons.1 h).elim (fun h => .inr (.inr h)) fun h => .inl (isDigit_of_mem_padded h)
    · exact .inl (isDigit_of_mem_padded h)

theorem Civil.le_of_mem_monthLengths {year : Int} {len : Nat} (h : len ∈ monthLengths year) :
    len ≤ 31 := by
  simp only [monthLengths, List.mem_cons, List.not_mem_nil, or_false] at h
  split at h <;> omega

namespace Date

theorem mem_chars {d : Date} {c : Char} (h : c ∈ d.chars) :
    c.isDigit = true ∨ c = '-' ∨ c = '+' := by
  simp only [chars, List.mem_append, List.mem_cons] at h
  rcases h with (h | h | h) | h | h
  · exact Civil.mem_yearChars h
  · exact .inr (.inl h)
  · exact .inl (isDigit_of_mem_padded h)
  · exact .inr (.inl h)
  · exact .inl (isDigit_of_mem_padded h)

theorem year_bounds (d : Date) : -2147483648 ≤ d.civil.year ∧ d.civil.year ≤ 2147483647 := by
  have hlo := Civil.yearStart_yearOf_le d.number
  have hhi := Civil.lt_yearStart_yearOf d.number
  have h1 := d.first_le
  have h2 := d.le_last
  simp only [civil, Civil.ofNumber]
  simp only [Civil.yearStart] at hlo hhi
  omega

theorem month_bounds (d : Date) : 1 ≤ d.civil.month ∧ d.civil.month ≤ 12 :=
  ⟨(Civil.isDay_ofNumber d.number).1, (Civil.isDay_ofNumber d.number).2.1⟩

theorem day_bounds (d : Date) : 1 ≤ d.civil.day ∧ d.civil.day ≤ 31 := by
  obtain ⟨-, -, hlo, hhi⟩ := Civil.isDay_ofNumber d.number
  refine ⟨hlo, Nat.le_trans hhi ?_⟩
  generalize (Civil.ofNumber d.number).month - 1 = month
  cases h : (Civil.monthLengths (Civil.ofNumber d.number).year)[month]? with
  | none => simp
  | some len => exact Civil.le_of_mem_monthLengths (List.mem_of_getElem? h)

open Literal in
theorem civilFields_chars (d : Date) (rest : List Char) :
    civilFields (d.chars ++ rest) = .ok (d.civil, rest) := by
  have hmonth := d.month_bounds
  have hday := d.day_bounds
  have hchars : d.chars ++ rest = Civil.yearChars d.civil.year ++
      '-' :: (padded 2 d.civil.month ++ '-' :: (padded 2 d.civil.day ++ rest)) := by
    simp [chars]
  rw [hchars, civilFields, year_yearChars d.year_bounds.1 d.year_bounds.2]
  simp only [bind, Except.bind, expect, if_true]
  rw [within_padded hmonth.1 hmonth.2 (by decide)]
  simp only [if_true]
  rw [within_padded hday.1 hday.2 (by decide)]
  rfl

@[simp] theorem read_text (d : Date) : Date.read d.text = .ok d := by
  have h := civilFields_chars d []
  rw [List.append_nil] at h
  simp [Date.read, text, h, bind, Except.bind, Literal.finish]

theorem mem_slashed {d : Date} {c : Char} (h : c ∈ d.slashed.toList) :
    c.isDigit = true ∨ c = '-' ∨ c = '+' ∨ c = '/' := by
  simp only [slashed, String.toList_ofList, List.mem_append, List.mem_cons] at h
  rcases h with (h | h | h) | h | h
  · exact .inl (isDigit_of_mem_padded h)
  · exact .inr (.inr (.inr h))
  · exact .inl (isDigit_of_mem_padded h)
  · exact .inr (.inr (.inr h))
  · rcases Civil.mem_yearChars h with h | h | h
    · exact .inl h
    · exact .inr (.inl h)
    · exact .inr (.inr (.inl h))

theorem eq_of_civil {d e : Date} (h : d.civil = e.civil) : d = e := by
  have hd := ofCivil?_civil d
  rw [h, ofCivil?_civil] at hd
  exact (Option.some.inj hd).symm

theorem yearChars_inj {d e : Date} (h : Civil.yearChars d.civil.year =
    Civil.yearChars e.civil.year) : d.civil.year = e.civil.year := by
  have hd := Literal.year_yearChars d.year_bounds.1 d.year_bounds.2 []
  rw [h, Literal.year_yearChars e.year_bounds.1 e.year_bounds.2] at hd
  exact (Prod.mk.inj (Except.ok.inj hd)).1.symm

theorem slashed_inj {d e : Date} : d.slashed = e.slashed ↔ d = e := by
  refine ⟨fun h => eq_of_civil ?_, fun h => by rw [h]⟩
  have hchars := String.ofList_injective h
  simp only [List.append_assoc, List.cons_append] at hchars
  obtain ⟨hmonth, hrest⟩ := padded_append_inj (by decide) hchars
  obtain ⟨hday, hyear⟩ := padded_append_inj (by decide) hrest
  have hyear := yearChars_inj hyear
  generalize d.civil = c at *
  generalize e.civil = c' at *
  cases c
  cases c'
  simp_all

end Date

namespace Instant

theorem mem_minuteChars {t : Instant} {mark c : Char} (h : c ∈ t.minuteChars mark) :
    c.isDigit = true ∨ c = '-' ∨ c = '+' ∨ c = ':' ∨ c = mark := by
  simp only [minuteChars, List.mem_append, List.mem_cons] at h
  rcases h with (h | h | h) | h | h
  · rcases Date.mem_chars h with h | h | h
    · exact .inl h
    · exact .inr (.inl h)
    · exact .inr (.inr (.inl h))
  · exact .inr (.inr (.inr (.inr h)))
  · exact .inl (isDigit_of_mem_padded h)
  · exact .inr (.inr (.inr (.inl h)))
  · exact .inl (isDigit_of_mem_padded h)

open Literal in
theorem clockFields_padded (t : Instant) (rest : List Char) :
    clockFields (padded 2 t.hour ++ ':' :: (padded 2 t.minute ++ rest)) =
      .ok ((t.hour, t.minute), rest) := by
  have hlt := t.secondOfDay_lt
  have hhour : t.hour ≤ 23 := by simp only [hour]; omega
  have hminute : t.minute ≤ 59 := by simp only [minute]; omega
  rw [clockFields, within_padded (Nat.zero_le _) hhour (by decide)]
  simp only [bind, Except.bind, expect, if_true]
  rw [within_padded (Nat.zero_le _) hminute (by decide)]
  rfl

open Literal in
/-- A written instant on a whole minute is read back, whatever stands between date and time. -/
theorem read_minuteChars {t : Instant} (h : t.OnMinute) {gap : Gap} {mark : Char}
    (hskip : gap.skip (mark :: (padded 2 t.hour ++ ':' :: padded 2 t.minute)) =
      .ok (padded 2 t.hour ++ ':' :: padded 2 t.minute)) :
    Instant.read gap (String.ofList (t.minuteChars mark)) = .ok t := by
  have hclock := t.clockFields_padded []
  rw [List.append_nil] at hclock
  simp [Instant.read, minuteChars, Date.civilFields_chars, hskip, hclock, bind, Except.bind,
    finish, atClock?_of_onMinute h]

@[simp] theorem read_literal {t : Instant} (h : t.OnMinute) :
    Instant.read .letter t.literal = .ok t :=
  read_minuteChars h rfl

@[simp] theorem read_spaced {t : Instant} (h : t.OnMinute) :
    Instant.read .blanks t.spaced = .ok t := by
  apply read_minuteChars h
  simp only [Literal.Gap.skip, List.dropWhile_cons, (by decide : isBlank ' ' = true), if_true,
    Literal.dropWhile_isBlank_padded]

theorem onMinute_of_atClock? {d : Date} {hour minute : Nat} {t : Instant}
    (h : atClock? d hour minute 0 = some t) : t.OnMinute := by
  unfold atClock? at h
  split at h
  · cases h
    simp only [OnMinute, onDate]
    omega
  · cases h

theorem onMinute_of_read {gap : Literal.Gap} {text : String} {t : Instant}
    (h : Instant.read gap text = .ok t) : t.OnMinute := by
  simp only [Instant.read, bind_eq_ok_iff] at h
  obtain ⟨_, -, _, -, ⟨⟨hour, minute⟩, _⟩, -, _, -, h⟩ := h
  split at h
  · cases h
  · split at h
    · rename_i hclock
      cases h
      exact onMinute_of_atClock? hclock
    · cases h

theorem mem_clock {t : Instant} {c : Char} (h : c ∈ t.clock.toList) :
    c.isDigit = true ∨ c ∈ [':', ' ', 'A', 'P', 'M'] := by
  simp only [clock, String.toList_ofList, List.mem_append, List.mem_cons, List.not_mem_nil,
    or_false] at h ⊢
  rcases h with (h | h | h) | h | h | h
  · exact .inl (isDigit_of_mem_padded h)
  · exact .inr (.inl h)
  · exact .inl (isDigit_of_mem_padded h)
  · exact .inr (.inr (.inl h))
  · split at h
    · exact .inr (.inr (.inr (.inl h)))
    · exact .inr (.inr (.inr (.inr (.inl h))))
  · exact .inr (.inr (.inr (.inr (.inr h))))

/-- A clock of twelve hours tells the hour and the minute. -/
theorem of_clock {s t : Instant} (h : s.clock = t.clock) : s.hour = t.hour ∧ s.minute = t.minute := by
  have hchars := String.ofList_injective h
  simp only [List.append_assoc, List.cons_append] at hchars
  obtain ⟨hhour, hrest⟩ := padded_append_inj (by decide) hchars
  obtain ⟨hminute, hhalf⟩ := padded_append_inj (by decide) hrest
  have hs : s.hour < 24 := by have := s.secondOfDay_lt; simp only [hour]; omega
  have ht : t.hour < 24 := by have := t.secondOfDay_lt; simp only [hour]; omega
  have hmorning : s.hour < 12 ↔ t.hour < 12 := by
    have hletter := (List.cons.inj hhalf).1
    grind
  refine ⟨?_, hminute⟩
  split at hhour <;> split at hhour <;> omega

theorem eq_of_date_clock {s t : Instant} (hs : s.OnMinute) (ht : t.OnMinute)
    (hdate : s.date = t.date) (hclock : s.clock = t.clock) : s = t := by
  obtain ⟨hhour, hminute⟩ := of_clock hclock
  have h := atClock?_of_onMinute hs
  rw [hdate, hhour, hminute, atClock?_of_onMinute ht] at h
  exact (Option.some.inj h).symm

end Instant
end Daybook
