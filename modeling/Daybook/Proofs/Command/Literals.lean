import Daybook.Command.Values
import Daybook.Command.Written
import Daybook.Proofs.Calendar.ReadBack
import Daybook.Proofs.Command.Words
import Daybook.Proofs.Results

/-!
Written values. Main statements: each is one word and no keyword, and it is read back as the value
that it was written for.
-/
namespace Daybook
variable {cs : List Char}

structure PlainWord (cs : List Char) : Prop where
  ne_nil : cs ≠ []
  unbroken : ∀ c ∈ cs, isSeparator c = false
  token : Token.ofWord cs = .word

theorem PlainWord.phrase (h : PlainWord cs) : Phrase cs := phrase_of_word h.ne_nil h.unbroken

theorem PlainWord.tokensOf (h : PlainWord cs) : tokensOf cs = [.word] := by
  rw [Daybook.tokensOf, words_word h.ne_nil h.unbroken, List.map_singleton, h.token]

theorem fold_of_isDigit {c : Char} (h : c.isDigit = true) : Keyword.fold c = c := by
  have hlt : c.toNat ≤ 57 := by
    simp only [Char.isDigit, Bool.and_eq_true, decide_eq_true_eq] at h
    exact h.2
  have hne : ∀ d : Char, 57 < d.toNat → c ≠ d := by
    rintro d hd rfl
    omega
  have hupper : ¬ (c.val ≥ 'A'.val ∧ c.val ≤ 'Z'.val) := by
    intro h
    obtain ⟨hge, -⟩ := h
    have hge : 65 ≤ c.toNat := hge
    omega
  rw [Keyword.fold, if_neg (hne _ (by decide)), if_neg (hne _ (by decide))]
  exact dif_neg hupper

theorem plainWord_of_digit {c : Char} (hc : c ∈ cs) (hdigit : c.isDigit = true)
    (h : ∀ d ∈ cs, isSeparator d = false) : PlainWord cs where
  ne_nil := List.ne_nil_of_mem hc
  unbroken := h
  token := by
    refine Token.ofWord_eq_word_iff.2 fun k hk => ?_
    have hmem : c ∈ k.text.toList := by
      rw [← hk, ← fold_of_isDigit hdigit]
      exact List.mem_map_of_mem hc
    have hno : k.text.toList.all (!·.isDigit) = true := by
      cases k <;> decide
    have hnot := List.all_eq_true.1 hno c hmem
    rw [hdigit] at hnot
    cases hnot

theorem not_isSeparator_of_isDigit {c : Char} (h : c.isDigit = true) : isSeparator c = false := by
  cases hsep : isSeparator c with
  | false => rfl
  | true =>
    simp only [isSeparator, Bool.or_eq_true, beq_iff_eq] at hsep
    rcases hsep with (((rfl | rfl) | rfl) | rfl) | rfl <;> cases h

theorem Instant.plainWord_literal (t : Instant) : PlainWord t.literal.toList := by
  rw [literal, String.toList_ofList]
  have hunbroken : ∀ c ∈ t.minuteChars 'T', isSeparator c = false := by
    intro c hc
    rcases mem_minuteChars hc with h | rfl | rfl | rfl | rfl
    · exact not_isSeparator_of_isDigit h
    all_goals rfl
  obtain ⟨c, ds, hminute⟩ := List.exists_cons_of_ne_nil (Decimal.padded_ne_nil 2 t.minute)
  have hc : c ∈ Decimal.padded 2 t.minute := hminute ▸ List.mem_cons_self
  exact plainWord_of_digit (by simp [minuteChars, hc]) (Decimal.isDigit_of_mem_padded hc) hunbroken

theorem Date.plainWord_text (d : Date) : PlainWord d.text.toList := by
  rw [text, String.toList_ofList]
  have hunbroken : ∀ c ∈ d.chars, isSeparator c = false := by
    intro c hc
    rcases mem_chars hc with h | rfl | rfl
    · exact not_isSeparator_of_isDigit h
    all_goals rfl
  obtain ⟨c, ds, hday⟩ := List.exists_cons_of_ne_nil (Decimal.padded_ne_nil 2 d.civil.day)
  have hc : c ∈ Decimal.padded 2 d.civil.day := hday ▸ List.mem_cons_self
  exact plainWord_of_digit (by simp [chars, hc]) (Decimal.isDigit_of_mem_padded hc) hunbroken

theorem Decimal.isDigit_of_mem_digits {n : Nat} {c : Char} (h : c ∈ digits n) : c.isDigit = true :=
  Nat.isDigit_of_mem_toDigits (by decide) (by decide) h

theorem Decimal.plainWord_digits (n : Nat) : PlainWord (Decimal.digits n) := by
  have hne : digits n ≠ [] := Nat.toDigits_ne_nil
  obtain ⟨c, ds, hdigits⟩ := List.exists_cons_of_ne_nil hne
  have hc : c ∈ digits n := hdigits ▸ List.mem_cons_self
  exact plainWord_of_digit hc (isDigit_of_mem_digits hc) fun d hd =>
    not_isSeparator_of_isDigit (isDigit_of_mem_digits hd)

theorem WeekdaySet.plainWord_letters {s : WeekdaySet} (h : s.toList ≠ []) :
    PlainWord s.letters.toList := by
  rw [letters, String.toList_ofList]
  refine ⟨by simpa using h, fun c hc => ?_, Token.ofWord_eq_word_iff.2 fun k hk => ?_⟩
  · obtain ⟨d, -, rfl⟩ := List.mem_map.1 hc
    cases d <;> rfl
  · have hany : (k.text.toList.any fun c =>
        Weekday.all.all fun d => Keyword.fold d.letter != c) = true := by
      cases k <;> decide
    obtain ⟨c, hc, hno⟩ := List.any_eq_true.1 hany
    rw [← hk, List.map_map, List.mem_map] at hc
    obtain ⟨d, -, rfl⟩ := hc
    have hnot := List.all_eq_true.1 hno d (Weekday.mem_all d)
    simp at hnot

namespace Command

theorem readDate_text (d : Date) : readDate d.text = .ok d := by
  rw [readDate, Date.read_text]
  rfl

theorem readInstant_literal {t : Instant} (h : t.OnMinute) : readInstant t.literal = .ok t := by
  rw [readInstant, Instant.read_literal h]
  rfl

theorem onMinute_of_readInstant {text : String} {t : Instant} (h : readInstant text = .ok t) :
    t.OnMinute := by
  rw [readInstant, mapError_eq_ok_iff] at h
  exact Instant.onMinute_of_read h

theorem readCount_digits (n : Count) :
    readCount (String.ofList (Decimal.digits n.val)) = .ok n := by
  have hall : (Decimal.digits n.val).all Char.isDigit = true :=
    List.all_eq_true.2 fun c hc => Decimal.isDigit_of_mem_digits hc
  have hplus : countDigits (Decimal.digits n.val) = Decimal.digits n.val := by
    unfold countDigits
    split
    · rename_i ds hds
      have hdigit := Decimal.isDigit_of_mem_digits (hds ▸ List.mem_cons_self)
      cases hdigit
    · rfl
  have hcount : count? (String.ofList (Decimal.digits n.val)) = some n := by
    rw [count?, String.toList_ofList, hplus, if_pos ⟨Nat.toDigits_ne_nil, hall⟩,
      Decimal.value_digits, Count.ofNat?, dif_pos n.property]
  rw [readCount, hcount]

theorem readLetters_map (ds : List Weekday) :
    WeekdaySet.readLetters (ds.map Weekday.letter) = .ok ds := by
  induction ds with
  | nil => rfl
  | cons d ds ih =>
    rw [List.map_cons, WeekdaySet.readLetters, Weekday.ofLetter?_letter, ih]
    rfl

theorem readWeekdays_letters (s : WeekdaySet) : readWeekdays s.letters = .ok s := by
  have hset : WeekdaySet.read s.letters = .ok (WeekdaySet.ofList s.toList) := by
    rw [WeekdaySet.read, WeekdaySet.letters, String.toList_ofList, readLetters_map]
    rfl
  rw [readWeekdays, hset, WeekdaySet.ofList_toList]
  rfl

theorem toList_ne_nil_of_readWeekdays {text : String} {s : WeekdaySet}
    (h : readWeekdays text = .ok s) (hne : text.toList ≠ []) : s.toList ≠ [] := by
  rw [readWeekdays, mapError_eq_ok_iff, WeekdaySet.read, map_eq_ok_iff] at h
  obtain ⟨ds, hds, rfl⟩ := h
  obtain ⟨c, cs, hcs⟩ := List.exists_cons_of_ne_nil hne
  rw [hcs, WeekdaySet.readLetters] at hds
  cases hletter : Weekday.ofLetter? c with
  | none =>
    rw [hletter] at hds
    cases hds
  | some d =>
    rw [hletter] at hds
    obtain ⟨rest, -, rfl⟩ := map_eq_ok_iff.1 hds
    exact List.ne_nil_of_mem (WeekdaySet.mem_toList.2
      (WeekdaySet.mem_ofList.2 (List.mem_cons_self : d ∈ d :: rest)))

theorem readDayBound_eq_ok_iff {text : String} {bound : Instant} :
    readDayBound text = .ok bound ↔
      ∃ last, readDate text = .ok last ∧ (Instant.midnight last).addDays? 1 = some bound := by
  simp only [readDayBound, bind_eq_ok_iff]
  refine exists_congr fun last => and_congr_right fun _ => ?_
  cases (Instant.midnight last).addDays? 1 with
  | none => simp [throw, throwThe, MonadExceptOf.throw]
  | some next => simp [pure, Except.pure]

/-- The bound of an all-day recurrence is found again from the last day it lets in. -/
theorem readDayBound_lastDay {text : String} {bound : Instant} (h : readDayBound text = .ok bound) :
    readDayBound (lastDay bound) = .ok bound := by
  obtain ⟨date, -, hnext⟩ := readDayBound_eq_ok_iff.1 h
  have hback : bound.addDays? (-1) = some (Instant.midnight date) := by
    rw [Instant.addDays?, Instant.addSeconds?_eq_some_iff] at *
    omega
  have hlast : lastDay bound = date.text := by
    rw [lastDay, hback, Option.getD_some, Instant.midnight, Instant.date_onDate]
  exact readDayBound_eq_ok_iff.2 ⟨date, hlast ▸ readDate_text date, hnext⟩

end Command
end Daybook
