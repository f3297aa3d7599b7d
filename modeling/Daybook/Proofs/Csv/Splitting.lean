import Daybook.Csv.Fields
import Daybook.Proofs.Text.TextLines
import Mathlib.Data.List.Forall2

/-!
Splitting a line into fields. Main statements: it gives back the fields that were joined with
commas; and a line that ends inside quotes, for want of what followed a line feed, is unterminated.
-/
namespace Daybook.Csv

def doubled (cs : List Char) : List Char := cs.flatMap fun c => if c = '"' then ['"', '"'] else [c]

theorem quoteChars_eq (cs : List Char) : quoteChars cs = '"' :: (doubled cs ++ ['"']) := rfl

inductive Written : List Char → List Char → Prop where
  | quoted (field : List Char) : Written field (quoteChars field)
  | bare (field : List Char) (h : ∀ c ∈ field, c ≠ ',' ∧ c ≠ '"') : Written field field

theorem splitFrom_quoted_cons {c : Char} (h : c ≠ '"') (cs : List Char) :
    splitFrom .quoted (c :: cs) = (splitFrom .quoted cs).map (pushChar c) := by
  conv_lhs => unfold splitFrom
  split <;> simp_all

theorem splitFrom_closing {cs : List Char} (h : cs.head? ≠ some '"') :
    splitFrom .quoted ('"' :: cs) = splitFrom .bare cs := by
  cases cs with
  | nil => rfl
  | cons c cs =>
    have hc : c ≠ '"' := fun hc => h (by rw [hc, List.head?_cons])
    conv_lhs => unfold splitFrom
    split <;> grind

theorem splitFrom_plain {place : Place} {c : Char} (hp : place ≠ .quoted) (h : c ≠ ',' ∧ c ≠ '"')
    (cs : List Char) : splitFrom place (c :: cs) = (splitFrom .bare cs).map (pushChar c) := by
  conv_lhs => unfold splitFrom
  split <;> simp_all

def pushText (cs : List Char) (fields : List (List Char)) : List (List Char) :=
  cs.foldr pushChar fields

section PushText
variable (r : Except FieldError (List (List Char)))

theorem map_pushText_nil : r.map (pushText []) = r := by
  cases r <;> rfl

theorem map_pushChar_pushText (c : Char) (cs : List Char) :
    (r.map (pushText cs)).map (pushChar c) = r.map (pushText (c :: cs)) := by
  cases r <;> rfl

theorem map_pushText_empty (cs : List Char) :
    (r.map ([] :: ·)).map (pushText cs) = r.map (cs :: ·) := by
  induction cs with
  | nil => exact map_pushText_nil _
  | cons c cs ih =>
    rw [← map_pushChar_pushText, ih]
    cases r <;> rfl

end PushText

/-- Inside quotes all characters of a field are taken, and the quotes stay open. -/
theorem splitFrom_doubled_append (cs rest : List Char) :
    splitFrom .quoted (doubled cs ++ rest) = (splitFrom .quoted rest).map (pushText cs) := by
  induction cs with
  | nil => rw [doubled, List.flatMap_nil, List.nil_append, map_pushText_nil]
  | cons c cs ih =>
    rw [doubled] at ih
    by_cases hc : c = '"'
    · subst hc
      simp only [doubled, List.flatMap_cons, if_true, List.cons_append, List.nil_append]
      rw [splitFrom, ih, map_pushChar_pushText]
    · simp only [doubled, List.flatMap_cons, if_neg hc, List.cons_append, List.nil_append]
      rw [splitFrom_quoted_cons hc, ih, map_pushChar_pushText]

theorem splitFrom_doubled (cs : List Char) {rest : List Char} (h : rest.head? ≠ some '"')
    {r : Except FieldError (List (List Char))}
    (hr : splitFrom .bare rest = r.map ([] :: ·)) :
    splitFrom .quoted (doubled cs ++ '"' :: rest) = r.map (cs :: ·) := by
  rw [splitFrom_doubled_append, splitFrom_closing h, hr, map_pushText_empty]

/-- Outside quotes all characters of a field are taken, up to the next comma or quote. -/
theorem splitFrom_plain_append {cs : List Char} (hcs : ∀ c ∈ cs, c ≠ ',' ∧ c ≠ '"') (hne : cs ≠ [])
    {place : Place} (hp : place ≠ .quoted) (rest : List Char) :
    splitFrom place (cs ++ rest) = (splitFrom .bare rest).map (pushText cs) := by
  induction cs generalizing place with
  | nil => exact absurd rfl hne
  | cons c cs ih =>
    rw [List.cons_append, splitFrom_plain hp (hcs c List.mem_cons_self), ← map_pushChar_pushText]
    by_cases hnil : cs = []
    · rw [hnil, List.nil_append, map_pushText_nil]
    · rw [ih (fun d hd => hcs d (List.mem_cons_of_mem c hd)) hnil (by decide)]

theorem splitFrom_bare {cs : List Char} (hcs : ∀ c ∈ cs, c ≠ ',' ∧ c ≠ '"') {rest : List Char}
    {r : Except FieldError (List (List Char))}
    (hr : ∀ place, place ≠ .quoted → splitFrom place rest = r.map ([] :: ·))
    {place : Place} (hp : place ≠ .quoted) :
    splitFrom place (cs ++ rest) = r.map (cs :: ·) := by
  by_cases hne : cs = []
  · subst hne
    exact hr place hp
  · rw [splitFrom_plain_append hcs hne hp, hr .bare (by decide), map_pushText_empty]

theorem Written.splitFrom {field text : List Char} (h : Written field text) {rest : List Char}
    (hrest : rest.head? ≠ some '"') {r : Except FieldError (List (List Char))}
    (hr : ∀ place, place ≠ .quoted → Csv.splitFrom place rest = r.map ([] :: ·)) :
    Csv.splitFrom .atStart (text ++ rest) = r.map (field :: ·) := by
  cases h with
  | quoted =>
    rw [quoteChars_eq, List.cons_append, List.append_assoc, List.singleton_append]
    exact splitFrom_doubled field hrest (hr .bare (by decide))
  | bare hcs => exact splitFrom_bare hcs hr (by decide)

theorem splitFrom_comma {place : Place} (hp : place ≠ .quoted) (cs : List Char) :
    splitFrom place (',' :: cs) = (splitFrom .atStart cs).map ([] :: ·) := by
  cases place with
  | quoted => contradiction
  | atStart => rfl
  | bare => rfl

theorem Written.splitFrom_comma {field text : List Char} (h : Written field text)
    (rest : List Char) :
    Csv.splitFrom .atStart (text ++ ',' :: rest) =
      (Csv.splitFrom .atStart rest).map (field :: ·) :=
  h.splitFrom (by simp) fun _ hp => Csv.splitFrom_comma hp rest

theorem Written.splitFrom_end {field text : List Char} (h : Written field text) :
    Csv.splitFrom .atStart text = .ok [field] := by
  have hend : ∀ place : Place, place ≠ .quoted →
      Csv.splitFrom place [] = (Except.ok []).map ([] :: ·) := by
    intro place hp
    cases place with
    | quoted => contradiction
    | atStart => rfl
    | bare => rfl
  have := @Written.splitFrom field text h [] (by simp) _ hend
  rwa [List.append_nil] at this

theorem splitFrom_intercalate {fields texts : List (List Char)}
    (h : List.Forall₂ Written fields texts) (hne : fields ≠ []) :
    splitFrom .atStart ([','].intercalate texts) = .ok fields := by
  induction h with
  | nil => contradiction
  | @cons field text fields texts hw h ih =>
    cases h with
    | nil => simpa using hw.splitFrom_end
    | cons hw' h' =>
      have := ih (by simp)
      rw [List.intercalate_cons_cons, List.append_assoc, List.singleton_append,
        hw.splitFrom_comma, this]
      rfl

theorem splitFrom_unterminated (cs : List Char) :
    splitFrom .quoted (doubled cs) = .error .unterminated := by
  rw [← List.append_nil (doubled cs), splitFrom_doubled_append]
  rfl

theorem doubled_append (cs ds : List Char) : doubled (cs ++ ds) = doubled cs ++ doubled ds :=
  List.flatMap_append

theorem doubled_cons (c : Char) (cs : List Char) : doubled (c :: cs) = doubled [c] ++ doubled cs :=
  doubled_append [c] cs

theorem stripReturn_doubled (cs : List Char) :
    stripReturn (doubled cs) = doubled (stripReturn cs) := by
  rcases List.eq_nil_or_concat cs with rfl | ⟨cs, c, rfl⟩
  · rfl
  · rw [List.concat_eq_append, stripReturn_concat, doubled_append]
    by_cases hr : c = '\r'
    · subst hr
      rw [if_pos rfl, show doubled ['\r'] = ['\r'] from rfl, stripReturn_concat, if_pos rfl]
    · rw [if_neg hr, doubled_append, stripReturn_append]
      · by_cases hq : c = '"'
        · subst hq
          rfl
        · simp [doubled, hq, stripReturn, hr]
      · by_cases hq : c = '"' <;> simp [doubled, hq]

theorem takeWhile_doubled {cs : List Char} (h : '\n' ∈ cs) (rest : List Char) :
    (doubled cs ++ rest).takeWhile (· != '\n') = doubled (cs.takeWhile (· != '\n')) := by
  induction cs with
  | nil => simp at h
  | cons c cs ih =>
    by_cases hc : c = '\n'
    · subst hc
      rfl
    · have hcs : '\n' ∈ cs := (List.mem_cons.1 h).resolve_left (Ne.symm hc)
      have hone : ∀ d ∈ doubled [c], (d != '\n') = true := by
        intro d hd
        by_cases hq : c = '"' <;> simp [doubled, hq] at hd <;> simp [hd, hc]
      rw [doubled_cons, List.append_assoc, List.takeWhile_append_of_pos hone, ih hcs,
        List.takeWhile_cons, if_pos (by simpa using hc), ← doubled_cons]

theorem lineFeed_mem_quoteChars {cs : List Char} : '\n' ∈ quoteChars cs ↔ '\n' ∈ cs := by
  rw [quoteChars_eq, doubled]
  simp only [List.mem_cons, List.mem_append, List.mem_flatMap, List.not_mem_nil, or_false]
  constructor
  · intro h
    obtain h | ⟨c, hc, h⟩ | h := h
    · cases h
    · by_cases hq : c = '"'
      · simp [hq] at h
      · rw [if_neg hq, List.mem_singleton] at h
        exact h ▸ hc
    · cases h
  · intro h
    exact .inr (.inl ⟨'\n', h, by simp⟩)

/-- A line feed inside quotes leaves the quotes open. -/
theorem splitFrom_firstLine {fields texts : List (List Char)}
    (h : List.Forall₂ Written fields texts)
    (hquoted : ∀ text ∈ texts, '\n' ∈ text → ∃ field, text = quoteChars field)
    (hfeed : '\n' ∈ [','].intercalate texts) :
    splitFrom .atStart (firstLine ([','].intercalate texts)) = .error .unterminated := by
  have hopen : ∀ (field rest : List Char), '\n' ∈ quoteChars field →
      splitFrom .atStart (firstLine (quoteChars field ++ rest)) = .error .unterminated := by
    intro field rest hmem
    have htake := takeWhile_doubled (lineFeed_mem_quoteChars.1 hmem) ('"' :: rest)
    rw [firstLine, quoteChars_eq, List.cons_append, List.append_assoc, List.singleton_append,
      List.takeWhile_cons, if_pos (by decide), htake, stripReturn_cons (by decide),
      stripReturn_doubled, splitFrom, splitFrom_unterminated]
  induction h with
  | nil => simp at hfeed
  | @cons field text fields texts hw h ih =>
    by_cases htext : '\n' ∈ text
    · obtain ⟨field', rfl⟩ := hquoted text List.mem_cons_self htext
      cases h with
      | nil => simpa using hopen field' [] htext
      | cons hw' h' =>
        rw [List.intercalate_cons_cons, List.append_assoc]
        exact hopen field' _ htext
    · have hplain : ∀ c ∈ text, (c != '\n') = true := by
        intro c hc
        simpa using fun he : c = '\n' => htext (he ▸ hc)
      cases h with
      | nil => exact absurd (by simpa using hfeed) htext
      | @cons field' text' fields texts hw' h' =>
        rw [List.intercalate_cons_cons, List.append_assoc, List.singleton_append] at hfeed ⊢
        have hrest := ih (fun t ht => hquoted t (List.mem_cons_of_mem text ht))
          (by simpa [htext] using hfeed)
        rw [firstLine, List.takeWhile_append_of_pos hplain, List.takeWhile_cons,
          if_pos (by decide), stripReturn_append (by simp), stripReturn_cons (by decide),
          hw.splitFrom_comma]
        rw [firstLine] at hrest
        rw [hrest]
        rfl

theorem splitFields_ofList {fields texts : List (List Char)}
    (h : List.Forall₂ Written fields texts) (hne : fields ≠ []) :
    splitFields (String.ofList ([','].intercalate texts)) = .ok (fields.map String.ofList) := by
  rw [splitFields, String.toList_ofList, splitFrom_intercalate h hne]
  rfl

end Daybook.Csv
