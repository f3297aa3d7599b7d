import Daybook.Csv.Dialect
import Daybook.Proofs.Calendar.ReadBack
import Daybook.Proofs.Csv.Splitting
import Daybook.Proofs.Event.WellFormed

/-!
Tables for Google Calendar, which are written and not read. Main statement: nothing is lost in
them, no two lists of well-formed events have the same table.
-/
namespace Daybook.Csv

theorem doubled_quote (cs : List Char) : doubled ('"' :: cs) = '"' :: '"' :: doubled cs := rfl

theorem doubled_cons_of_ne {c : Char} (h : c ≠ '"') (cs : List Char) :
    doubled (c :: cs) = c :: doubled cs := by
  rw [doubled_cons, doubled, List.flatMap_cons, if_neg h]
  rfl

/-- The closing quote is the first that no second one follows. -/
theorem doubled_append_inj {cs ds xs ys : List Char} (hxs : xs.head? ≠ some '"')
    (hys : ys.head? ≠ some '"') (h : doubled cs ++ '"' :: xs = doubled ds ++ '"' :: ys) :
    cs = ds ∧ xs = ys := by
  have hempty : ∀ {d : Char} {ds xs ys : List Char}, xs.head? ≠ some '"' →
      '"' :: xs ≠ doubled (d :: ds) ++ '"' :: ys := by
    intro d ds xs ys hxs h
    by_cases hd : d = '"'
    · subst hd
      exact hxs (by rw [(List.cons.inj h).2]; rfl)
    · rw [doubled_cons_of_ne hd] at h
      exact hd (List.cons.inj h).1.symm
  induction cs generalizing ds with
  | nil =>
    cases ds with
    | nil => exact ⟨rfl, (List.cons.inj h).2⟩
    | cons d ds => exact absurd h (hempty hxs)
  | cons c cs ih =>
    cases ds with
    | nil => exact absurd h.symm (hempty hys)
    | cons d ds =>
      by_cases hc : c = '"' <;> by_cases hd : d = '"'
      · subst hc hd
        obtain ⟨rfl, hrest⟩ := ih (List.cons.inj (List.cons.inj h).2).2
        exact ⟨rfl, hrest⟩
      · rw [hc, doubled_quote, doubled_cons_of_ne hd, List.cons_append, List.cons_append] at h
        exact absurd (List.cons.inj h).1.symm hd
      · rw [hd, doubled_quote, doubled_cons_of_ne hc, List.cons_append, List.cons_append] at h
        exact absurd (List.cons.inj h).1 hc
      · rw [doubled_cons_of_ne hc, doubled_cons_of_ne hd] at h
        obtain ⟨rfl, htail⟩ := List.cons.inj h
        obtain ⟨rfl, hrest⟩ := ih htail
        exact ⟨rfl, hrest⟩

def isSpecial (c : Char) : Bool := c = ',' || c = '"' || c = '\n'

/-- The ways to write a field of a row: in quotes, or as it is if no character needs them. Unlike a
line, a table goes on after a line feed, so a field without quotes cannot hold one. -/
inductive Framed : List Char → List Char → Prop where
  | quoted (field : List Char) : Framed field (quoteChars field)
  | bare (field : List Char) (h : ∀ c ∈ field, isSpecial c = false) : Framed field field

def Stop (c : Char) : Prop := c = ',' ∨ c = '\n'

theorem Stop.isSpecial {c : Char} (h : Stop c) : isSpecial c = true := by
  obtain rfl | rfl := h <;> rfl

theorem Stop.ne_quote {c : Char} (h : Stop c) : c ≠ '"' := by
  obtain rfl | rfl := h <;> decide

theorem Stop.head?_bare {c : Char} (hc : Stop c) {cs : List Char}
    (h : ∀ c ∈ cs, Csv.isSpecial c = false) (xs : List Char) :
    (cs ++ c :: xs).head? ≠ some '"' := by
  cases cs with
  | nil => simpa using hc.ne_quote
  | cons d cs =>
    have hd := h d List.mem_cons_self
    rintro ⟨⟩
    cases hd

/-- A field is found again from a text that goes on behind it. -/
theorem Framed.append_inj {field text field' text' : List Char} (h : Framed field text)
    (h' : Framed field' text') {c d : Char} (hc : Stop c) (hd : Stop d) {xs ys : List Char}
    (heq : text ++ c :: xs = text' ++ d :: ys) : field = field' ∧ c = d ∧ xs = ys := by
  cases h with
  | quoted =>
    cases h' with
    | quoted =>
      simp only [quoteChars_eq, List.cons_append, List.append_assoc, List.nil_append] at heq
      obtain ⟨hfield, hrest⟩ := doubled_append_inj (hc.head?_bare (List.forall_mem_nil _) xs)
        (hd.head?_bare (List.forall_mem_nil _) ys) (List.cons.inj heq).2
      exact ⟨hfield, List.cons.inj hrest⟩
    | bare hcs => exact absurd (congrArg List.head? heq).symm (hd.head?_bare hcs ys)
  | bare hcs =>
    cases h' with
    | quoted => exact absurd (congrArg List.head? heq) (hc.head?_bare hcs xs)
    | bare hcs' =>
      have hrun : ∀ {cs : List Char}, (∀ c ∈ cs, isSpecial c = false) →
          ∀ c ∈ cs, (!isSpecial c) = true := fun h c hmem => by rw [h c hmem]; rfl
      have hstop : ∀ {c : Char} (xs : List Char), Stop c →
          ∀ x ∈ (c :: xs).head?, (!isSpecial x) = false := by
        rintro c xs hc x ⟨⟩
        rw [hc.isSpecial]
        rfl
      obtain ⟨hfield, hrest⟩ := append_inj_of_all (hrun hcs) (hrun hcs') (hstop xs hc)
        (hstop ys hd) heq
      exact ⟨hfield, List.cons.inj hrest⟩

/-- What stands behind the first field of a row, and that it is the end if there is no second. -/
theorem exists_stop (text : List Char) (texts : List (List Char)) (xs : List Char) :
    ∃ c rest, Stop c ∧ [','].intercalate (text :: texts) ++ '\n' :: xs = text ++ c :: rest ∧
      (texts = [] → c = '\n' ∧ rest = xs) ∧
      (texts ≠ [] → c = ',' ∧ rest = [','].intercalate texts ++ '\n' :: xs) := by
  cases texts with
  | nil => exact ⟨'\n', xs, .inr rfl, by simp, fun _ => ⟨rfl, rfl⟩, fun h => absurd rfl h⟩
  | cons next texts =>
    exact ⟨',', _, .inl rfl, by simp [List.intercalate_cons_cons], nofun, fun _ => ⟨rfl, rfl⟩⟩

/-- The fields of a row are found again, and so is where the row ends. -/
theorem intercalate_append_inj {fields texts fields' texts' : List (List Char)}
    (h : List.Forall₂ Framed fields texts) (h' : List.Forall₂ Framed fields' texts')
    (hne : texts ≠ []) (hne' : texts' ≠ []) {xs ys : List Char}
    (heq : [','].intercalate texts ++ '\n' :: xs = [','].intercalate texts' ++ '\n' :: ys) :
    fields = fields' ∧ xs = ys := by
  induction h generalizing fields' texts' with
  | nil => contradiction
  | @cons field text fields texts hw h ih =>
    cases h' with
    | nil => contradiction
    | @cons field' text' fields' texts' hw' h' =>
      obtain ⟨c, rest, hc, hrest, hlast, hmore⟩ := exists_stop text texts xs
      obtain ⟨d, rest', hd, hrest', hlast', hmore'⟩ := exists_stop text' texts' ys
      rw [hrest, hrest'] at heq
      obtain ⟨rfl, rfl, rfl⟩ := hw.append_inj hw' hc hd heq
      by_cases hnil : texts = [] <;> by_cases hnil' : texts' = []
      · subst hnil hnil'
        cases h
        cases h'
        exact ⟨rfl, (hlast rfl).2.symm.trans (hlast' rfl).2⟩
      · exact absurd ((hlast hnil).1.symm.trans (hmore' hnil').1) (by decide)
      · exact absurd ((hlast' hnil').1.symm.trans (hmore hnil).1) (by decide)
      · obtain ⟨rfl, hrows⟩ := ih h' hnil hnil' ((hmore hnil).2.symm.trans (hmore' hnil').2)
        exact ⟨rfl, hrows⟩

def contents (e : Event) : List String :=
  [e.name, e.start.date.slashed, if e.allDay then "" else e.start.clock,
    if e.allDay then e.start.date.slashed else e.stop.date.slashed,
    if e.allDay then "" else e.stop.clock, if e.allDay then "True" else "False",
    e.description, e.location, if e.isPublic then "False" else "True"]

theorem framed_of_not_mem {field : List Char} (hcomma : ',' ∉ field) (hquote : '"' ∉ field)
    (hfeed : '\n' ∉ field) : Framed field field := by
  refine .bare _ fun c hc => Bool.eq_false_iff.2 fun h => ?_
  simp only [isSpecial, Bool.or_eq_true, decide_eq_true_eq] at h
  obtain (rfl | rfl) | rfl := h <;> contradiction

theorem framed_slashed (d : Date) : Framed d.slashed.toList d.slashed.toList := by
  apply framed_of_not_mem <;> exact fun hc => absurd (Date.mem_slashed hc) (by decide)

theorem framed_clock (t : Instant) : Framed t.clock.toList t.clock.toList := by
  apply framed_of_not_mem <;> exact fun hc => absurd (Instant.mem_clock hc) (by decide)

theorem framed_columns (e : Event) :
    List.Forall₂ Framed ((contents e).map String.toList)
      ((Dialect.google.columns e).map String.toList) := by
  have hquote : ∀ text : String, Framed text.toList (quote text).toList := fun text => by
    simpa [quote] using Framed.quoted text.toList
  have hempty : Framed "".toList "".toList := framed_of_not_mem (by decide) (by decide) (by decide)
  have htrue : Framed "True".toList "True".toList :=
    framed_of_not_mem (by decide) (by decide) (by decide)
  have hfalse : Framed "False".toList "False".toList :=
    framed_of_not_mem (by decide) (by decide) (by decide)
  have hchoice : ∀ {b : Bool} {text text' : String}, Framed text.toList text.toList →
      Framed text'.toList text'.toList →
      Framed (if b then text else text').toList (if b then text else text').toList := by
    intro b text text' h h'
    cases b
    · exact h'
    · exact h
  refine .cons (hquote _) (.cons (framed_slashed _) (.cons (hchoice hempty (framed_clock _))
    (.cons (hchoice (framed_slashed _) (framed_slashed _)) (.cons
    (hchoice hempty (framed_clock _)) (.cons (hchoice htrue hfalse) (.cons (hquote _)
    (.cons (hquote _) (.cons (hchoice hfalse htrue) .nil))))))))

theorem ite_text_inj {b b' : Bool} {text text' : String} (hne : text ≠ text')
    (h : (if b then text else text') = if b' then text else text') : b = b' := by
  cases b <;> cases b' <;> simp_all

/-- What is left out of the columns of a whole day follows from the date. -/
theorem eq_of_contents {e f : Event} (he : e.WellFormed) (hf : f.WellFormed)
    (h : contents e = contents f) : e = f := by
  simp only [contents, List.cons.injEq, and_true] at h
  obtain ⟨hname, hdate, hstart, hstopDate, hstop, hday, hdescription, hlocation, hprivate⟩ := h
  have hday := ite_text_inj (by decide) hday
  have hpublic := ite_text_inj (by decide) hprivate
  have hdate := Date.slashed_inj.1 hdate
  have htimes : e.start = f.start ∧ e.stop = f.stop := by
    cases hwhole : e.allDay with
    | false =>
      have hwhole' : f.allDay = false := hday ▸ hwhole
      simp only [hwhole, hwhole', Bool.false_eq_true, if_false] at hstart hstopDate hstop
      exact ⟨Instant.eq_of_date_clock he.start_onMinute hf.start_onMinute hdate hstart,
        Instant.eq_of_date_clock he.stop_onMinute hf.stop_onMinute
          (Date.slashed_inj.1 hstopDate) hstop⟩
    | true =>
      obtain ⟨hmidnight, hnext⟩ := he.whole_day hwhole
      obtain ⟨hmidnight', hnext'⟩ := hf.whole_day (hday ▸ hwhole)
      have hsame : e.start = f.start := by rw [hmidnight, hmidnight', hdate]
      rw [hsame, hnext'] at hnext
      exact ⟨hsame, (Option.some.inj hnext).symm⟩
  obtain ⟨hsameStart, hsameStop⟩ := htimes
  cases e
  cases f
  simp_all

def googleChars (events : List Event) : List Char :=
  events.flatMap fun e =>
    [','].intercalate ((Dialect.google.columns e).map String.toList) ++ ['\n']

theorem googleChars_cons (e : Event) (events : List Event) :
    googleChars (e :: events) =
      [','].intercalate ((Dialect.google.columns e).map String.toList) ++
        '\n' :: googleChars events := by
  simp [googleChars]

theorem toList_google_table (events : List Event) :
    (Dialect.google.table events).toList =
      Dialect.google.header.toList ++ '\n' :: googleChars events := by
  simp [Dialect.table, Dialect.row, googleChars, List.flatMap_map]

theorem googleChars_inj {events events' : List Event} (h : ∀ e ∈ events, e.WellFormed)
    (h' : ∀ e ∈ events', e.WellFormed) (heq : googleChars events = googleChars events') :
    events = events' := by
  induction events generalizing events' with
  | nil =>
    cases events' with
    | nil => rfl
    | cons f events' => simp [googleChars] at heq
  | cons e events ih =>
    cases events' with
    | nil => simp [googleChars] at heq
    | cons f events' =>
      rw [googleChars_cons, googleChars_cons] at heq
      obtain ⟨hcolumns, hrows⟩ := intercalate_append_inj (framed_columns e) (framed_columns f)
        (by simp [Dialect.columns]) (by simp [Dialect.columns]) heq
      have hcontents := List.map_injective_iff.2 (fun _ _ => String.toList_injective) hcolumns
      rw [eq_of_contents (h e List.mem_cons_self) (h' f List.mem_cons_self) hcontents,
        ih (fun e he => h e (List.mem_cons_of_mem _ he))
          (fun e he => h' e (List.mem_cons_of_mem _ he)) hrows]

/-- Two lists of well-formed events with the same table for Google Calendar are the same. -/
theorem google_table_inj {events events' : List Event} (h : ∀ e ∈ events, e.WellFormed)
    (h' : ∀ e ∈ events', e.WellFormed) :
    Dialect.google.table events = Dialect.google.table events' ↔ events = events' := by
  refine ⟨fun heq => googleChars_inj h h' ?_, fun heq => by rw [heq]⟩
  have hchars := congrArg String.toList heq
  rw [toList_google_table, toList_google_table] at hchars
  exact (List.cons.inj (List.append_cancel_left hchars)).2

def halfPastMidnight : Event :=
  ⟨"a \"b\",\n", ⟨63763201800, by decide, by decide⟩, ⟨63763203600, by decide, by decide⟩,
    false, "", "", true, by decide⟩

def halfPastNoon : Event :=
  ⟨"a \"b\",\n", ⟨63763245000, by decide, by decide⟩, ⟨63763246800, by decide, by decide⟩,
    false, "", "", true, by decide⟩

theorem google_table_noon_ne_midnight :
    (∀ e ∈ [halfPastNoon], e.WellFormed) ∧ (∀ e ∈ [halfPastMidnight], e.WellFormed) ∧
      Dialect.google.table [halfPastNoon] ≠ Dialect.google.table [halfPastMidnight] :=
  ⟨by decide, by decide, fun h => absurd ((google_table_inj (by decide) (by decide)).1 h)
    (by decide)⟩

end Daybook.Csv
