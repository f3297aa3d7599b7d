import Daybook.Proofs.Csv.RoundTrip

/-!
Tables that are read and written again. Main statements: whatever a table was like, what is read
from it is written as a table that gives the same events, and the same text when they are written
again; and the events that tables give can be written.
-/
namespace Daybook.Csv
variable {bytes : Bytes} {line : String} {e : Event} {es : List Event}

theorem flatten_pushChar (c : Char) (fs : List (List Char)) :
    (pushChar c fs).flatten = c :: fs.flatten := by
  cases fs <;> rfl

theorem flatten_sublist_of_splitFrom {place : Place} {cs : List Char} {fs : List (List Char)}
    (h : splitFrom place cs = .ok fs) : fs.flatten.Sublist cs := by
  have hpush : ∀ {place : Place} {c : Char} {cs : List Char} {fs : List (List Char)},
      (∀ {gs}, splitFrom place cs = .ok gs → gs.flatten.Sublist cs) →
      (splitFrom place cs).map (pushChar c) = .ok fs → fs.flatten.Sublist (c :: cs) := by
    intro place c cs fs ih h
    obtain ⟨gs, hgs, rfl⟩ := map_eq_ok_iff.1 h
    rw [flatten_pushChar]
    exact (ih hgs).cons_cons c
  fun_induction splitFrom place cs generalizing fs with
  | case1 => cases h
  | case2 cs ih => exact (hpush ih h).cons '"'
  | case3 cs _ ih => exact (ih h).cons '"'
  | case4 c cs _ _ ih => exact hpush ih h
  | case5 =>
    cases h
    exact List.Sublist.refl _
  | case6 place cs _ ih =>
    obtain ⟨gs, hgs, rfl⟩ := map_eq_ok_iff.1 h
    exact (ih hgs).cons ','
  | case7 cs ih => exact (ih h).cons '"'
  | case8 => cases h
  | case9 place c cs _ _ _ _ _ _ ih => exact hpush ih h

theorem mem_of_mem_splitFields {fields : List String} {field : String} {c : Char}
    (h : splitFields line = .ok fields) (hfield : field ∈ fields) (hc : c ∈ field.toList) :
    c ∈ line.toList := by
  rw [splitFields, map_eq_ok_iff] at h
  obtain ⟨fs, hfs, rfl⟩ := h
  obtain ⟨f, hf, rfl⟩ := List.mem_map.1 hfield
  rw [String.toList_ofList] at hc
  exact (flatten_sublist_of_splitFrom hfs).subset (List.mem_flatten.2 ⟨f, hf, hc⟩)

/-- A row is seven fields. Three of them are the texts of the event; the times, read as they may be,
make the rest. -/
theorem of_readRow (h : readRow line = .ok e) :
    ∃ start stop allDay isPublic s t made,
      splitFields line =
        .ok [e.name, start, stop, allDay, e.description, e.location, isPublic] ∧
      readTimestamp start = .ok s ∧ readTimestamp stop = .ok t ∧
      (Event.onDay e.name s.date = .ok made ∨ Event.timed e.name s t = .ok made) ∧
      e = { made with
        description := e.description, location := e.location, isPublic := e.isPublic } := by
  simp only [readRow, bind_eq_ok_iff, mapError_eq_ok_iff] at h
  obtain ⟨fields, hsplit, h⟩ := h
  split at h
  · rename_i name start stop allDay description location isPublic
    obtain ⟨s, hs, t, ht, kind, -, made, hmade, truth, -, hpure⟩ := by
      simpa only [bind_eq_ok_iff, mapError_eq_ok_iff] using h
    cases hpure
    have hkind : Event.onDay name s.date = .ok made ∨ Event.timed name s t = .ok made := by
      cases kind with
      | true => exact .inl hmade
      | false => exact .inr hmade
    have hname : made.name = name := by
      obtain hday | htimed := hkind
      · exact (Event.of_onDay hday).2.1
      · exact (Event.of_timed htimed).2.1
    rw [← hname] at hsplit hkind
    exact ⟨start, stop, allDay, isPublic, s, t, made, hsplit, hs, ht, hkind, rfl⟩
  · cases h

theorem wellFormed_of_readRow (h : readRow line = .ok e) : e.WellFormed := by
  obtain ⟨_, _, _, _, s, t, made, -, hs, ht, hkind, he⟩ := of_readRow h
  rw [readTimestamp, mapError_eq_ok_iff] at hs ht
  have hmade : made.WellFormed := by
    obtain hday | htimed := hkind
    · exact Event.wellFormed_of_onDay hday
    · exact Event.wellFormed_of_timed htimed (Instant.onMinute_of_read hs)
        (Instant.onMinute_of_read ht)
  rw [he]
  exact ⟨hmade.name_ne_empty, hmade.start_onMinute, hmade.stop_onMinute, hmade.whole_day⟩

theorem hasLineFeed_of_readRow (h : readRow line = .ok e) (hline : '\n' ∉ line.toList) :
    e.hasLineFeed = false := by
  obtain ⟨_, _, _, _, _, _, _, hsplit, -⟩ := of_readRow h
  have hno : ∀ text ∈ [e.name, e.description, e.location], '\n' ∉ text.toList := by
    intro text htext hfeed
    refine hline (mem_of_mem_splitFields hsplit ?_ hfeed)
    simp only [List.mem_cons, List.not_mem_nil, or_false] at htext ⊢
    obtain rfl | rfl | rfl := htext <;> simp
  simpa [Event.hasLineFeed] using hno

theorem exists_line_of_read (h : read bytes = .ok es) (he : e ∈ es) :
    ∃ line, some line ∈ bytes.lines ∧ readRow line = .ok e := by
  rw [read] at h
  cases hlines : bytes.lines with
  | nil =>
    rw [hlines] at h
    cases h
    cases he
  | cons header rows =>
    cases header with
    | none =>
      rw [hlines] at h
      cases h
    | some header =>
      rw [hlines, readLines] at h
      split at h
      · obtain ⟨texts, rfl⟩ := exists_texts_of_readRows h
        have hrows := readRows_eq_ok_iff.1 h
        obtain ⟨i, hi, rfl⟩ := List.getElem_of_mem he
        have hline := hrows.get (hrows.length_eq ▸ hi) hi
        refine ⟨_, List.mem_cons_of_mem _ (List.mem_map_of_mem ?_), hline⟩
        exact List.mem_of_mem_filter (List.get_mem _ _)
      · cases h

/-- What is read can be written. -/
theorem forall_of_read (h : read bytes = .ok es) :
    ∀ e ∈ es, e.WellFormed ∧ e.hasLineFeed = false := by
  intro e he
  obtain ⟨line, hline, hread⟩ := exists_line_of_read h he
  exact ⟨wellFormed_of_readRow hread,
    hasLineFeed_of_readRow hread (Bytes.lineFeed_not_mem_of_mem_lines hline)⟩

/-- The events of a table, whatever wrote it, are well-formed, end after they start and hold no line
feed in their texts. The table they are written as gives them again, and it is written again as the
same text. -/
theorem read_table_of_read (h : read bytes = .ok es) :
    (∀ e ∈ es, e.WellFormed ∧ e.start < e.stop ∧ e.hasLineFeed = false) ∧
      read (Bytes.ofString (Dialect.plain.table es)) = .ok es ∧
      ∀ again, read (Bytes.ofString (Dialect.plain.table es)) = .ok again →
        Dialect.plain.table again = Dialect.plain.table es := by
  have hall := forall_of_read h
  have hback := read_table_of_forall hall
  refine ⟨fun e he => ⟨(hall e he).1, e.start_lt_stop, (hall e he).2⟩, hback, ?_⟩
  intro again hagain
  rw [hback, Except.ok.injEq] at hagain
  rw [hagain]

def handWritten : String :=
  "EventName,Start,End,AllDay,Description,Location,Public \r\n\r\n" ++
  "\"Half\" quoted,2031-2-3 9:0,+2031-02-03 \t10:00,false,\"a \"\"b\"\"\",\"\",true\r\n" ++
  "day,2031-02-04 23:59,2031-01-01 00:00,true,,,false"

def handWrittenEvents : List Event :=
  [⟨"Half quoted", ⟨64063472400, by decide, by decide⟩, ⟨64063476000, by decide, by decide⟩, false,
      "a \"b\"", "", true, by decide⟩,
    ⟨"day", ⟨64063526400, by decide, by decide⟩, ⟨64063612800, by decide, by decide⟩, true, "", "",
      false, by decide⟩]

theorem read_table_of_read_handWritten :
    read (Bytes.ofString handWritten) = .ok handWrittenEvents ∧
      Dialect.plain.table handWrittenEvents ≠ handWritten ∧
      read (Bytes.ofString (Dialect.plain.table handWrittenEvents)) = .ok handWrittenEvents := by
  have hread : read (Bytes.ofString handWritten) = .ok handWrittenEvents := by decide +kernel
  exact ⟨hread, by decide, (read_table_of_read hread).2.1⟩

end Daybook.Csv
