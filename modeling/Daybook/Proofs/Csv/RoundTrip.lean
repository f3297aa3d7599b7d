import Daybook.Csv.Table
import Daybook.Proofs.Calendar.ReadBack
import Daybook.Proofs.Csv.Rows
import Daybook.Proofs.Csv.Splitting
import Daybook.Proofs.Event.WellFormed
import Daybook.Proofs.Results

/-!
Tables that are written and read back. Main statement: what comes back are the events that were
written, unless a text holds a line feed; then the first such row is reported.
-/
namespace Daybook

def Event.hasLineFeed (e : Event) : Bool :=
  [e.name, e.description, e.location].any fun text => text.toList.contains '\n'

namespace Csv

def truth (b : Bool) : List Char := if b then ['t', 'r', 'u', 'e'] else ['f', 'a', 'l', 's', 'e']

def fields (e : Event) : List (List Char) :=
  [e.name.toList, e.start.minuteChars ' ', e.stop.minuteChars ' ', truth e.allDay,
    e.description.toList, e.location.toList, truth e.isPublic]

def texts (e : Event) : List (List Char) :=
  [quoteChars e.name.toList, e.start.minuteChars ' ', e.stop.minuteChars ' ', truth e.allDay,
    quoteChars e.description.toList, quoteChars e.location.toList, truth e.isPublic]

theorem toList_row (e : Event) : (Dialect.plain.row e).toList = [','].intercalate (texts e) := by
  have htruth : ∀ b : Bool, (if b then "true" else "false").toList = truth b := by
    intro b
    cases b <;> rfl
  simp [Dialect.row, Dialect.columns, texts, quote, Instant.spaced, htruth]

/-- No column but those of texts needs quotes, or can hold a line feed. -/
theorem plain_minuteChars (t : Instant) :
    ∀ c ∈ t.minuteChars ' ', c ≠ ',' ∧ c ≠ '"' ∧ c ≠ '\n' := by
  intro c hc
  refine ⟨?_, ?_, ?_⟩ <;> rintro rfl <;> exact absurd (Instant.mem_minuteChars hc) (by decide)

theorem plain_truth (b : Bool) : ∀ c ∈ truth b, c ≠ ',' ∧ c ≠ '"' ∧ c ≠ '\n' := by
  cases b <;> simp [truth]

theorem written_texts (e : Event) : List.Forall₂ Written (fields e) (texts e) := by
  have hbare : ∀ cs : List Char, (∀ c ∈ cs, c ≠ ',' ∧ c ≠ '"' ∧ c ≠ '\n') → Written cs cs :=
    fun cs h => .bare cs fun c hc => ⟨(h c hc).1, (h c hc).2.1⟩
  refine .cons (.quoted _) (.cons (hbare _ (plain_minuteChars _)) (.cons
    (hbare _ (plain_minuteChars _)) (.cons (hbare _ (plain_truth _)) (.cons (.quoted _)
    (.cons (.quoted _) (.cons (hbare _ (plain_truth _)) .nil))))))

theorem quoted_of_lineFeed_mem {e : Event} : ∀ text ∈ texts e, '\n' ∈ text →
    ∃ field, text = quoteChars field := by
  intro text htext hfeed
  have hnot : ∀ cs : List Char, (∀ c ∈ cs, c ≠ ',' ∧ c ≠ '"' ∧ c ≠ '\n') → text = cs → False :=
    fun cs h he => (h '\n' (he ▸ hfeed)).2.2 rfl
  simp only [texts, List.mem_cons, List.not_mem_nil, or_false] at htext
  rcases htext with h | h | h | h | h | h | h
  · exact ⟨_, h⟩
  · exact (hnot _ (plain_minuteChars _) h).elim
  · exact (hnot _ (plain_minuteChars _) h).elim
  · exact (hnot _ (plain_truth _) h).elim
  · exact ⟨_, h⟩
  · exact ⟨_, h⟩
  · exact (hnot _ (plain_truth _) h).elim

theorem lineFeed_mem_row {e : Event} :
    '\n' ∈ (Dialect.plain.row e).toList ↔ e.hasLineFeed = true := by
  have hinstant : ∀ t : Instant, '\n' ∉ t.minuteChars ' ' := fun t h =>
    (plain_minuteChars t _ h).2.2 rfl
  have htruth : ∀ b, '\n' ∉ truth b := fun b h => (plain_truth b _ h).2.2 rfl
  rw [toList_row]
  simp [texts, Event.hasLineFeed, lineFeed_mem_quoteChars, hinstant, htruth]

theorem readRow_row {e : Event} (h : e.WellFormed) : readRow (Dialect.plain.row e) = .ok e := by
  have hsplit : splitFields (Dialect.plain.row e) = .ok ((fields e).map String.ofList) := by
    rw [← String.ofList_toList (s := Dialect.plain.row e), toList_row]
    exact splitFields_ofList (written_texts e) (by simp [fields])
  have htruth : ∀ b : Bool, readBoolean (String.ofList (truth b)) = .ok b := by
    intro b
    cases b <;> rfl
  have hstart : readTimestamp (String.ofList (e.start.minuteChars ' ')) = .ok e.start := by
    rw [readTimestamp, ← Instant.spaced, Instant.read_spaced h.start_onMinute]
    rfl
  have hstop : readTimestamp (String.ofList (e.stop.minuteChars ' ')) = .ok e.stop := by
    rw [readTimestamp, ← Instant.spaced, Instant.read_spaced h.stop_onMinute]
    rfl
  have hevent := h.rebuild
  rw [readRow, hsplit]
  simp only [fields, List.map_cons, List.map_nil, String.ofList_toList, mapError_ok, bind,
    Except.bind, hstart, hstop, htruth, hevent]
  rfl

/-- A row that is cut at a line feed is left with an open quote. -/
theorem readRow_firstLine {e : Event} (h : e.hasLineFeed = true) :
    readRow (String.ofList (firstLine (Dialect.plain.row e).toList)) =
      .error (.fields .unterminated) := by
  have hsplit := splitFrom_firstLine (written_texts e) quoted_of_lineFeed_mem
    (toList_row e ▸ lineFeed_mem_row.2 h)
  rw [readRow, splitFields, String.toList_ofList, toList_row, hsplit]
  rfl

def rowChars (events : List Event) : List Char :=
  events.flatMap fun e => (Dialect.plain.row e).toList ++ ['\n']

theorem rowChars_cons (e : Event) (events : List Event) :
    rowChars (e :: events) = (Dialect.plain.row e).toList ++ '\n' :: rowChars events := by
  simp [rowChars]

theorem table_eq (events : List Event) :
    Dialect.plain.table events = heading ++ String.ofList (rowChars events) := by
  rw [← String.toList_inj]
  simp [Dialect.table, heading, rowChars, List.flatMap_map]

theorem row_starts_quoted (e : Event) : ∃ cs, (Dialect.plain.row e).toList = '"' :: cs := by
  rw [toList_row]
  exact ⟨_, rfl⟩

theorem stripReturn_row (e : Event) :
    stripReturn (Dialect.plain.row e).toList = (Dialect.plain.row e).toList := by
  have hlast : ∀ (cs : List Char) (b : Bool),
      stripReturn (cs ++ ',' :: truth b) = cs ++ ',' :: truth b := by
    intro cs b
    rw [stripReturn_append (by simp)]
    cases b <;> rfl
  have hrow : ∃ cs, (Dialect.plain.row e).toList = cs ++ ',' :: truth e.isPublic := by
    rw [toList_row]
    refine ⟨[','].intercalate (texts e).dropLast, ?_⟩
    simp [texts]
  obtain ⟨cs, hcs⟩ := hrow
  rw [hcs, hlast]

theorem blank_of_quote {line : String} {cs : List Char} (h : line.toList = '"' :: cs) :
    blank line = false := by
  rw [blank, h]
  rfl

/-- Rows are read back one by one, up to the first that a line feed cuts. -/
theorem readRows_rowChars {events : List Event} (h : ∀ e ∈ events, e.WellFormed) (n : Nat) :
    readRows n (Bytes.ofString (String.ofList (rowChars events))).lines =
      match events.findIdx? Event.hasLineFeed with
      | none => .ok events
      | some k => .error (.badRow (k + n) (.fields .unterminated)) := by
  induction events generalizing n with
  | nil => rfl
  | cons e events ih =>
    rw [rowChars_cons]
    obtain ⟨cs, hcs⟩ := row_starts_quoted e
    cases hfeed : e.hasLineFeed with
    | true =>
      have hmem := lineFeed_mem_row.2 hfeed
      obtain ⟨rest, hlines⟩ := Bytes.lines_ofString_of_mem (List.mem_append_left
        ('\n' :: rowChars events) hmem)
      have hquote : (String.ofList (firstLine (Dialect.plain.row e).toList)).toList =
          '"' :: firstLine cs := by
        rw [String.toList_ofList, hcs, firstLine, List.takeWhile_cons, if_pos (by decide),
          stripReturn_cons (by decide), firstLine]
      rw [hlines, firstLine_append_of_mem hmem, readRows_row (blank_of_quote hquote),
        readRow_firstLine hfeed, List.findIdx?_cons, hfeed]
      simp only [mapError_error, bind, Except.bind, if_true, Nat.zero_add]
    | false =>
      have hnone : '\n' ∉ (Dialect.plain.row e).toList := by simp [lineFeed_mem_row, hfeed]
      rw [Bytes.lines_ofString_cons hnone, stripReturn_row, String.ofList_toList,
        readRows_row (blank_of_quote hcs), readRow_row (h e List.mem_cons_self),
        ih (fun f hf => h f (List.mem_cons_of_mem e hf)), List.findIdx?_cons, hfeed]
      cases events.findIdx? Event.hasLineFeed with
      | none => rfl
      | some k =>
        have hline : k + (n + 1) = k + 1 + n := by omega
        simp only [mapError_ok, bind, Except.bind, Bool.false_eq_true, if_false,
          Option.map_some, hline]

theorem read_table_eq {events : List Event} (h : ∀ e ∈ events, e.WellFormed) :
    read (Bytes.ofString (Dialect.plain.table events)) =
      match events.findIdx? Event.hasLineFeed with
      | none => .ok events
      | some k => .error (.badRow (k + 2) (.fields .unterminated)) := by
  rw [table_eq, read_heading, readRows_rowChars h]

theorem read_table_of_forall {events : List Event}
    (h : ∀ e ∈ events, e.WellFormed ∧ e.hasLineFeed = false) :
    read (Bytes.ofString (Dialect.plain.table events)) = .ok events := by
  have hnone : events.findIdx? Event.hasLineFeed = none :=
    List.findIdx?_eq_none_iff.2 fun e he => (h e he).2
  rw [read_table_eq fun e he => (h e he).1, hnone]

/-- Writing well-formed events and reading them back gives the same events if no text of theirs
holds a line feed. Else the first event with one is at fault, its line ends inside quotes. -/
theorem read_table {events : List Event} (h : ∀ e ∈ events, e.WellFormed) :
    (events.findIdx? Event.hasLineFeed = none →
      read (Bytes.ofString (Dialect.plain.table events)) = .ok events) ∧
    ∀ k, events.findIdx? Event.hasLineFeed = some k →
      ∃ cause, read (Bytes.ofString (Dialect.plain.table events)) = .error (.badRow (k + 2) cause) ∧
        cause.message = "unterminated quoted field" := by
  rw [read_table_eq h]
  constructor
  · intro hnone
    rw [hnone]
  · intro k hk
    rw [hk]
    exact ⟨_, rfl, rfl⟩

def remote : Event :=
  ⟨"a \"b\", c\r", ⟨-120000000000, by decide, by decide⟩, ⟨-119999996400, by decide, by decide⟩,
    false, "", "\"", false, by decide⟩

def twoLined : Event :=
  ⟨"day", ⟨406080000000, by decide, by decide⟩, ⟨406080086400, by decide, by decide⟩, true,
    "one\r\ntwo", "", true, by decide⟩

theorem read_table_remote_twoLined :
    (∀ e ∈ [remote, twoLined], e.WellFormed) ∧
      read (Bytes.ofString (Dialect.plain.table [remote])) = .ok [remote] ∧
      ∃ cause, read (Bytes.ofString (Dialect.plain.table [remote, twoLined])) =
          .error (.badRow 3 cause) ∧ cause.message = "unterminated quoted field" :=
  ⟨by decide, (read_table (by decide)).1 (by decide), (read_table (by decide)).2 1 (by decide)⟩

end Csv
end Daybook
