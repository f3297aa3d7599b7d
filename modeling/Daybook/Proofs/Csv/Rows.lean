import Daybook.Csv.Table
import Daybook.Proofs.Results
import Daybook.Proofs.Text.TextLines
import Mathlib.Data.List.Forall2

/-!
Rows of a table, line by line. Main statement: what stands behind a line feed is read as under a
header of its own, but for the numbers of its lines; each line that is not blank gives one event,
and the first that gives none is the error.
-/
namespace Daybook.Csv
variable {n k : Nat} {line : String} {lines : List String} {cause : RowError}

def blank (line : String) : Bool := line.toList.all isBlank

theorem readRows_blank (h : blank line = true) (rest : List (Option String)) :
    readRows n (some line :: rest) = readRows (n + 1) rest := by
  rw [readRows]
  exact if_pos h

theorem readRows_row (h : blank line = false) (rest : List (Option String)) :
    readRows n (some line :: rest) = (do
      let event ← (readRow line).mapError (.badRow n)
      let events ← readRows (n + 1) rest
      return event :: events) := by
  rw [readRows]
  exact if_neg (by rw [← blank, h]; exact Bool.false_ne_true)

/-- The rows of two pieces: those of the first, then those of the second, whose lines are counted
on. -/
theorem readRows_append (xs ys : List (Option String)) :
    readRows n (xs ++ ys) = (do
      let es ← readRows n xs
      let fs ← readRows (n + xs.length) ys
      return es ++ fs) := by
  induction xs generalizing n with
  | nil =>
    rw [List.nil_append, List.length_nil, Nat.add_zero, readRows]
    cases readRows n ys <;> rfl
  | cons x xs ih =>
    have hlength : n + 1 + xs.length = n + (x :: xs).length := by
      rw [List.length_cons]
      omega
    cases x with
    | none => rfl
    | some line =>
      rw [List.cons_append]
      cases h : blank line with
      | true => rw [readRows_blank h, readRows_blank h, ih, hlength]
      | false =>
        rw [readRows_row h, readRows_row h, ih, hlength]
        cases (readRow line).mapError (TableError.badRow n) with
        | error e => rfl
        | ok event =>
          cases readRows (n + 1) xs with
          | error e => rfl
          | ok es =>
            cases readRows (n + (some line :: xs).length) ys <;> rfl

theorem exists_texts_of_readRows {xs : List (Option String)} {es : List Event}
    (h : readRows n xs = .ok es) : ∃ lines : List String, xs = lines.map some := by
  induction xs generalizing n es with
  | nil => exact ⟨[], rfl⟩
  | cons x xs ih =>
    cases x with
    | none => cases h
    | some line =>
      have hrest : ∃ n es, readRows n xs = .ok es := by
        cases hblank : blank line with
        | true => exact ⟨_, _, readRows_blank hblank xs ▸ h⟩
        | false =>
          simp only [readRows_row hblank, bind_eq_ok_iff] at h
          obtain ⟨_, -, fs, hfs, -⟩ := h
          exact ⟨_, _, hfs⟩
      obtain ⟨n, es, hrest⟩ := hrest
      obtain ⟨lines, rfl⟩ := ih hrest
      exact ⟨line :: lines, rfl⟩

def Reads (line : String) (e : Event) : Prop := readRow line = .ok e

/-- Each line that is not blank gives one event, wherever the numbers of the lines begin. -/
theorem readRows_eq_ok_iff {es : List Event} :
    readRows n (lines.map some) = .ok es ↔
      List.Forall₂ Reads (lines.filter (!blank ·)) es := by
  induction lines generalizing n es with
  | nil =>
    rw [List.map_nil, readRows, Except.ok.injEq, List.filter_nil, List.forall₂_nil_left_iff]
    exact eq_comm
  | cons line lines ih =>
    rw [List.map_cons]
    cases hblank : blank line with
    | true => rw [readRows_blank hblank, ih, List.filter_cons_of_neg (by simp [hblank])]
    | false =>
      rw [readRows_row hblank, List.filter_cons_of_pos (by simp [hblank]),
        List.forall₂_cons_left_iff]
      simp only [bind_eq_ok_iff, mapError_eq_ok_iff, ih, Reads]
      constructor
      · rintro ⟨e, he, fs, hfs, hpure⟩
        cases hpure
        exact ⟨e, fs, he, hfs, rfl⟩
      · rintro ⟨e, fs, he, hfs, rfl⟩
        exact ⟨e, he, fs, hfs, rfl⟩

structure FirstBad (lines : List String) (k : Nat) (cause : RowError) : Prop where
  bad : ∃ line, lines[k]? = some line ∧ blank line = false ∧ readRow line = .error cause
  before : ∀ j < k, ∀ line, lines[j]? = some line → blank line = true ∨ ∃ e, Reads line e

theorem firstBad_cons_of_good (h : blank line = true ∨ ∃ e, Reads line e) :
    FirstBad (line :: lines) k cause ↔ ∃ j, k = j + 1 ∧ FirstBad lines j cause := by
  constructor
  · intro hbad
    obtain ⟨other, hat, hblank, hread⟩ := hbad.bad
    cases k with
    | zero =>
      cases hat
      obtain h | ⟨e, h⟩ := h
      · rw [h] at hblank
        cases hblank
      · rw [Reads, hread] at h
        cases h
    | succ j =>
      exact ⟨j, rfl, ⟨other, hat, hblank, hread⟩,
        fun i hi line hline => hbad.before (i + 1) (Nat.succ_lt_succ hi) line hline⟩
  · rintro ⟨j, rfl, hbad⟩
    refine ⟨hbad.bad, fun i hi other hother => ?_⟩
    cases i with
    | zero =>
      cases hother
      exact h
    | succ i => exact hbad.before i (Nat.lt_of_succ_lt_succ hi) other hother

theorem firstBad_cons_of_bad {first : RowError} (hblank : blank line = false)
    (hread : readRow line = .error first) :
    FirstBad (line :: lines) k cause ↔ k = 0 ∧ cause = first := by
  constructor
  · intro hbad
    cases k with
    | zero =>
      obtain ⟨other, hat, -, hother⟩ := hbad.bad
      cases hat
      rw [hread, Except.error.injEq] at hother
      exact ⟨rfl, hother.symm⟩
    | succ j =>
      obtain h | ⟨e, h⟩ := hbad.before 0 (Nat.succ_pos j) line rfl
      · rw [h] at hblank
        cases hblank
      · rw [Reads, hread] at h
        cases h
  · rintro ⟨rfl, rfl⟩
    exact ⟨⟨line, rfl, hblank, hread⟩, fun j hj => absurd hj (Nat.not_lt_zero j)⟩

/-- An error is that of the first bad line, under its number. -/
theorem readRows_eq_error_iff {e : TableError} :
    readRows n (lines.map some) = .error e ↔
      ∃ k cause, FirstBad lines k cause ∧ e = .badRow (k + n) cause := by
  induction lines generalizing n with
  | nil =>
    refine iff_of_false (by simp [readRows]) ?_
    rintro ⟨k, cause, hbad, -⟩
    obtain ⟨line, hat, -⟩ := hbad.bad
    cases hat
  | cons line lines ih =>
    have hnext : ∀ k, k + 1 + n = k + (n + 1) := by omega
    have hgood : blank line = true ∨ (∃ e, Reads line e) →
        (readRows (n + 1) (lines.map some) = .error e ↔
          ∃ k cause, FirstBad (line :: lines) k cause ∧ e = .badRow (k + n) cause) := by
      intro h
      simp only [ih, firstBad_cons_of_good h]
      constructor
      · rintro ⟨j, cause, hbad, rfl⟩
        exact ⟨j + 1, cause, ⟨j, rfl, hbad⟩, by rw [hnext]⟩
      · rintro ⟨k, cause, ⟨j, rfl, hbad⟩, rfl⟩
        exact ⟨j, cause, hbad, by rw [hnext]⟩
    rw [List.map_cons]
    cases hblank : blank line with
    | true => rw [readRows_blank hblank, hgood (.inl hblank)]
    | false =>
      rw [readRows_row hblank]
      cases hread : readRow line with
      | error first =>
        simp only [firstBad_cons_of_bad hblank hread, mapError_error]
        constructor
        · rintro ⟨⟩
          exact ⟨0, first, ⟨rfl, rfl⟩, by rw [Nat.zero_add]⟩
        · rintro ⟨k, cause, ⟨rfl, rfl⟩, rfl⟩
          rw [Nat.zero_add]
          rfl
      | ok event =>
        rw [← hgood (.inr ⟨event, hread⟩), mapError_ok]
        cases readRows (n + 1) (lines.map some) with
        | error e => exact Iff.rfl
        | ok es => exact iff_of_false nofun nofun

def heading : String := Dialect.plain.header ++ "\n"

theorem read_heading (text : String) :
    read (Bytes.ofString (heading ++ text)) = readRows 2 (Bytes.ofString text).lines := by
  have hfeed : '\n' ∉ Dialect.plain.header.toList := by decide
  have htrim : trimEnd (stripReturn Dialect.plain.header.toList) =
      Dialect.plain.header.toList := by decide
  have hchars : (heading ++ text).toList =
      Dialect.plain.header.toList ++ '\n' :: text.toList := by
    simp [heading]
  rw [← String.ofList_toList (s := heading ++ text), hchars, read, Bytes.lines_ofString_cons hfeed,
    readLines, String.toList_ofList, if_pos htrim, String.ofList_toList]

/-- A table in two pieces, the first of which ends behind a line feed. An error of the first piece
is that of the table. Else its events come first, and an error of the second piece has its line
counted from the first one's start. In a piece each line that is not blank gives one event, in
order, and an error is that of the first line that gives none, blank lines counted. -/
theorem read_append {a : String} (ha : a = "" ∨ a.toList.getLast? = some '\n') (b : String) :
    (∀ e, read (Bytes.ofString (heading ++ a)) = .error e →
      read (Bytes.ofString (heading ++ a ++ b)) = .error e) ∧
    (∀ es fs, read (Bytes.ofString (heading ++ a)) = .ok es →
      read (Bytes.ofString (heading ++ b)) = .ok fs →
      read (Bytes.ofString (heading ++ a ++ b)) = .ok (es ++ fs)) ∧
    (∀ es l cause, read (Bytes.ofString (heading ++ a)) = .ok es →
      read (Bytes.ofString (heading ++ b)) = .error (.badRow l cause) →
      read (Bytes.ofString (heading ++ a ++ b)) =
        .error (.badRow (l + a.toList.count '\n') cause)) ∧
    ∃ lines : List String, (Bytes.ofString b).lines = lines.map some ∧
      (∀ es, read (Bytes.ofString (heading ++ b)) = .ok es ↔
        List.Forall₂ Reads (lines.filter (!blank ·)) es) ∧
      ∀ e, read (Bytes.ofString (heading ++ b)) = .error e ↔
        ∃ k cause, FirstBad lines k cause ∧ e = .badRow (k + 2) cause := by
  obtain ⟨lines, hlines⟩ := Bytes.exists_lines_ofString b
  have hread : read (Bytes.ofString (heading ++ a ++ b)) = (do
      let es ← readRows 2 (Bytes.ofString a).lines
      let fs ← readRows (2 + a.toList.count '\n') (lines.map some)
      return es ++ fs) := by
    rw [String.append_assoc, read_heading, Bytes.lines_ofString_append ha, readRows_append,
      Bytes.length_lines_ofString ha, hlines]
  simp only [hread, read_heading, hlines]
  refine ⟨fun e he => ?_, fun es fs hes hfs => ?_, fun es l cause hes hbad => ?_, lines, rfl,
    fun es => readRows_eq_ok_iff, fun e => readRows_eq_error_iff⟩
  · rw [he]
    rfl
  · rw [hes, readRows_eq_ok_iff.2 (readRows_eq_ok_iff.1 hfs)]
    rfl
  · obtain ⟨k, other, hfirst, hrow⟩ := readRows_eq_error_iff.1 hbad
    cases hrow
    rw [hes, readRows_eq_error_iff.2 ⟨k, cause, hfirst, rfl⟩, Nat.add_assoc]
    rfl

def looseRows : String := "\n \t\r\nX,2024-5-6 9:0,2024-05-06 10:00,false,,,true\r\n\r\n"

def brokenRows : String :=
  "\"Y\",2024-05-07 00:00,2024-05-08 00:00,true,\"\",\"\",false\n\n\"Z\",2024-05-07"

def looseEvent : Event :=
  ⟨"X", ⟨63850582800, by decide, by decide⟩, ⟨63850586400, by decide, by decide⟩, false, "", "",
    true, by decide⟩

/-- The broken line is the fourth of its table, and four lines stand before that. -/
theorem read_append_looseRows :
    (looseRows = "" ∨ looseRows.toList.getLast? = some '\n') ∧
      read (Bytes.ofString (heading ++ looseRows)) = .ok [looseEvent] ∧
      read (Bytes.ofString (heading ++ brokenRows)) = .error (.badRow 4 (.fieldCount 2)) ∧
      read (Bytes.ofString (heading ++ looseRows ++ brokenRows)) =
        .error (.badRow 8 (.fieldCount 2)) := by
  have hends : looseRows = "" ∨ looseRows.toList.getLast? = some '\n' := by decide
  have hloose : read (Bytes.ofString (heading ++ looseRows)) = .ok [looseEvent] := by
    decide +kernel
  have hbroken : read (Bytes.ofString (heading ++ brokenRows)) =
      .error (.badRow 4 (.fieldCount 2)) := by
    decide +kernel
  exact ⟨hends, hloose, hbroken, (read_append hends brokenRows).2.2.1 _ 4 _ hloose hbroken⟩

end Daybook.Csv
