import Daybook.Proofs.Csv.Splitting
import Daybook.Proofs.Results
import Mathlib.Data.List.Induction

/-!
Fields in quotes and as they are. Main statement: splitting a line gives back the fields that were
joined, however each was written; it fails only if the line ends in quotes, or at a quote that is
neither where a field starts nor in quotes.
-/
namespace Daybook.Csv
variable {front before text tail : List Char} {place place' place'' : Place}

def Plain (cs : List Char) : Prop := ∀ c ∈ cs, c ≠ ',' ∧ c ≠ '"'

theorem plain_nil : Plain [] := by
  intro c hc
  cases hc

inductive QuotedPart : List Char → Prop where
  | nothing : QuotedPart []
  | quotes (content : List Char) : QuotedPart (quoteChars content)

inductive FieldStart : List Char → Prop where
  | front : FieldStart []
  | behind {front part tail : List Char} (hfront : FieldStart front) (hpart : QuotedPart part)
      (htail : Plain tail) : FieldStart (front ++ part ++ tail ++ [','])

def Opened (before : List Char) : Prop :=
  ∃ front content, FieldStart front ∧ before = front ++ '"' :: doubled content

theorem Opened.append_doubled (h : Opened before) (content : List Char) :
    Opened (before ++ doubled content) := by
  obtain ⟨front, content', hfront, rfl⟩ := h
  exact ⟨front, content' ++ content, hfront, by simp [doubled_append]⟩

/-- A place of a line in quotes. The one between two quotes that stand for one is in quotes too. -/
def InQuotes (before after : List Char) : Prop :=
  Opened before ∨ ∃ opened, Opened opened ∧ before = opened ++ ['"'] ∧ after.head? = some '"'

def InBare (before : List Char) : Prop :=
  ∃ front part tail, FieldStart front ∧ QuotedPart part ∧ Plain tail ∧ tail ≠ [] ∧
    before = front ++ part ++ tail

def Leads (place : Place) (text : List Char) (place' : Place) : Prop :=
  ∃ f, ∀ rest, splitFrom place (text ++ rest) = (splitFrom place' rest).map f

namespace Leads

theorem nil : Leads place [] place := by
  refine ⟨id, fun rest => ?_⟩
  rw [List.nil_append]
  cases splitFrom place rest <;> rfl

theorem append {text' : List Char} (h : Leads place text place') (h' : Leads place' text' place'') :
    Leads place (text ++ text') place'' := by
  obtain ⟨f, hf⟩ := h
  obtain ⟨g, hg⟩ := h'
  refine ⟨f ∘ g, fun rest => ?_⟩
  rw [List.append_assoc, hf, hg]
  cases splitFrom place'' rest <;> rfl

theorem comma (hp : place ≠ .quoted) : Leads place [','] .atStart := ⟨_, splitFrom_comma hp⟩

theorem plain (hp : place ≠ .quoted) (h : Plain tail) (hne : tail ≠ []) :
    Leads place tail .bare := ⟨_, splitFrom_plain_append h hne hp⟩

theorem opening : Leads .atStart ['"'] .quoted := by
  refine ⟨id, fun rest => ?_⟩
  rw [List.singleton_append, splitFrom]
  cases splitFrom .quoted rest <;> rfl

theorem doubled (content : List Char) : Leads .quoted (doubled content) .quoted :=
  ⟨_, splitFrom_doubled_append content⟩

/-- A closing quote is one that no quote follows. -/
theorem closing (h : Leads .bare text place) (hhead : ∃ c, text.head? = some c ∧ c ≠ '"') :
    Leads .quoted ('"' :: text) place := by
  obtain ⟨f, hf⟩ := h
  obtain ⟨c, hc, hne⟩ := hhead
  refine ⟨f, fun rest => ?_⟩
  rw [List.cons_append, splitFrom_closing, hf]
  rw [List.head?_append, hc]
  simpa using hne

end Leads

theorem QuotedPart.leads {part : List Char} (h : QuotedPart part)
    (htext : ∀ p : Place, p ≠ .quoted → Leads p text place)
    (hhead : ∃ c, text.head? = some c ∧ c ≠ '"') : Leads .atStart (part ++ text) place := by
  cases h with
  | nothing => exact htext .atStart (by decide)
  | quotes content =>
    have hparts : quoteChars content ++ text = ['"'] ++ (doubled content ++ '"' :: text) := by
      simp [quoteChars_eq]
    rw [hparts]
    exact Leads.opening.append
      ((Leads.doubled content).append ((htext .bare (by decide)).closing hhead))

theorem FieldStart.leads (h : FieldStart before) : Leads .atStart before .atStart := by
  induction h with
  | front => exact .nil
  | @behind front part tail hfront hpart htail ih =>
    rw [List.append_assoc, List.append_assoc]
    refine ih.append (hpart.leads (fun p hp => ?_) ?_)
    · by_cases hne : tail = []
      · rw [hne]
        exact .comma hp
      · exact (Leads.plain hp htail hne).append (.comma (by decide))
    · cases tail with
      | nil => exact ⟨',', rfl, by decide⟩
      | cons c tail => exact ⟨c, rfl, (htail c List.mem_cons_self).2⟩

theorem Opened.leads (h : Opened before) : Leads .atStart before .quoted := by
  obtain ⟨front, content, hfront, rfl⟩ := h
  exact hfront.leads.append (Leads.opening.append (.doubled content))

theorem InBare.leads (h : InBare before) : Leads .atStart before .bare := by
  obtain ⟨front, part, tail, hfront, hpart, htail, hne, rfl⟩ := h
  rw [List.append_assoc]
  refine hfront.leads.append (hpart.leads (fun p hp => .plain hp htail hne) ?_)
  obtain ⟨c, tail, rfl⟩ := List.exists_cons_of_ne_nil hne
  exact ⟨c, rfl, (htail c List.mem_cons_self).2⟩

def Strayed (line : List Char) : Prop := ∃ before after, line = before ++ '"' :: after ∧ InBare before

inductive Standing (before : List Char) : Prop where
  | start (h : FieldStart before)
  | bare (h : InBare before)
  | opened (h : Opened before)
  | closed (opened : List Char) (h : Opened opened) (hbefore : before = opened ++ ['"'])
  | strayed (h : Strayed before)

namespace Standing

theorem more {part : List Char} {c : Char} (hfront : FieldStart front) (hpart : QuotedPart part)
    (htail : Plain tail) (hstray : c = '"' → InBare (front ++ part ++ tail)) :
    Standing (front ++ part ++ tail ++ [c]) := by
  by_cases hcomma : c = ','
  · subst hcomma
    exact .start (.behind hfront hpart htail)
  · by_cases hquote : c = '"'
    · subst hquote
      exact .strayed ⟨_, [], rfl, hstray rfl⟩
    · refine .bare ⟨front, part, tail ++ [c], hfront, hpart, ?_, by simp, by simp⟩
      intro d hd
      rcases List.mem_append.1 hd with hd | hd
      · exact htail d hd
      · rw [List.mem_singleton.1 hd]
        exact ⟨hcomma, hquote⟩

theorem step {c : Char} (h : Standing before) : Standing (before ++ [c]) := by
  cases h with
  | start h =>
    by_cases hquote : c = '"'
    · subst hquote
      exact .opened ⟨before, [], h, rfl⟩
    · simpa using more h .nothing plain_nil fun hc : c = '"' => absurd hc hquote
  | bare h =>
    obtain ⟨front, part, tail, hfront, hpart, htail, -, rfl⟩ := id h
    exact more hfront hpart htail fun _ => h
  | opened h =>
    by_cases hquote : c = '"'
    · subst hquote
      exact .closed before h rfl
    · have hopened := h.append_doubled [c]
      rw [doubled, List.flatMap_singleton, if_neg hquote] at hopened
      exact .opened hopened
  | closed opened h hbefore =>
    subst hbefore
    by_cases hquote : c = '"'
    · subst hquote
      rw [List.append_assoc]
      exact .opened (h.append_doubled ['"'])
    · obtain ⟨front, content, hfront, rfl⟩ := h
      have := more hfront (.quotes content) plain_nil fun hc : c = '"' => absurd hc hquote
      simpa [quoteChars_eq] using this
  | strayed h =>
    obtain ⟨p, q, rfl, hp⟩ := h
    exact .strayed ⟨p, q ++ [c], by simp, hp⟩

end Standing

theorem standing (before : List Char) : Standing before := by
  induction before using List.reverseRecOn with
  | nil => exact .start .front
  | append_singleton before c ih => exact ih.step

theorem Opened.splitFrom_eq {line : List Char} (h : Opened line) :
    splitFrom .atStart line = .error .unterminated := by
  obtain ⟨f, hf⟩ := h.leads
  rw [← List.append_nil line, hf]
  rfl

theorem InBare.splitFrom_eq (h : InBare before) (after : List Char) :
    splitFrom .atStart (before ++ '"' :: after) = .error .strayQuote := by
  obtain ⟨f, hf⟩ := h.leads
  rw [hf]
  rfl

theorem Leads.exists_fields {line : List Char} (h : Leads .atStart line place)
    (hp : place ≠ .quoted) : ∃ fields, splitFrom .atStart line = .ok fields := by
  obtain ⟨f, hf⟩ := h
  refine ⟨f [[]], ?_⟩
  rw [← List.append_nil line, hf]
  cases place with
  | quoted => exact absurd rfl hp
  | atStart => rfl
  | bare => rfl

theorem exists_fields_of_closed {line : List Char} (h : Opened line) :
    ∃ fields, splitFrom .atStart (line ++ ['"']) = .ok fields := by
  obtain ⟨f, hf⟩ := h.leads
  exact ⟨f [[]], hf ['"']⟩

theorem Strayed.splitFrom_eq {line : List Char} (h : Strayed line) :
    splitFrom .atStart line = .error .strayQuote := by
  obtain ⟨before, after, rfl, hbare⟩ := h
  exact hbare.splitFrom_eq after

/-- A line is read, or it ends in quotes, or it has a stray quote. -/
theorem splitFrom_cases (line : List Char) :
    (∃ fields, splitFrom .atStart line = .ok fields) ∨ Opened line ∨ Strayed line := by
  cases standing line with
  | start h => exact .inl (h.leads.exists_fields (by decide))
  | bare h => exact .inl (h.leads.exists_fields (by decide))
  | opened h => exact .inr (.inl h)
  | closed opened h hline => exact .inl (hline ▸ exists_fields_of_closed h)
  | strayed h => exact .inr (.inr h)

theorem splitFrom_eq_unterminated_iff {line : List Char} :
    splitFrom .atStart line = .error .unterminated ↔ Opened line := by
  refine ⟨fun h => ?_, Opened.splitFrom_eq⟩
  rcases splitFrom_cases line with ⟨fields, hok⟩ | hopened | hstrayed
  · cases h.symm.trans hok
  · exact hopened
  · cases h.symm.trans hstrayed.splitFrom_eq

theorem splitFrom_eq_strayQuote_iff {line : List Char} :
    splitFrom .atStart line = .error .strayQuote ↔ Strayed line := by
  refine ⟨fun h => ?_, Strayed.splitFrom_eq⟩
  rcases splitFrom_cases line with ⟨fields, hok⟩ | hopened | hstrayed
  · cases h.symm.trans hok
  · cases h.symm.trans hopened.splitFrom_eq
  · exact hstrayed

theorem inQuotes_nil_iff : InQuotes before [] ↔ Opened before := by
  constructor
  · rintro (h | ⟨opened, -, -, hnext⟩)
    · exact h
    · cases hnext
  · exact .inl

theorem InBare.not_fieldStart (h : InBare before) : ¬ FieldStart before := by
  intro hstart
  -- a quote would be a stray one and open a field
  have hopened : Opened (before ++ ['"']) := ⟨before, [], hstart, rfl⟩
  cases (h.splitFrom_eq []).symm.trans hopened.splitFrom_eq

theorem InBare.not_inQuotes (h : InBare before) (after : List Char) :
    ¬ InQuotes before ('"' :: after) := by
  rintro (hopened | ⟨opened, hopened, rfl, -⟩)
  · obtain ⟨fields, hok⟩ := exists_fields_of_closed hopened
    cases (h.splitFrom_eq []).symm.trans hok
  · have hstill := (hopened.append_doubled ['"']).splitFrom_eq
    have hstray := h.splitFrom_eq []
    rw [List.append_assoc] at hstray
    cases hstray.symm.trans hstill

theorem strayed_iff {line : List Char} :
    Strayed line ↔ ∃ before after, line = before ++ '"' :: after ∧ ¬ FieldStart before ∧
      ¬ InQuotes before ('"' :: after) := by
  constructor
  · rintro ⟨before, after, rfl, hbare⟩
    exact ⟨before, after, rfl, hbare.not_fieldStart, hbare.not_inQuotes after⟩
  · rintro ⟨before, after, rfl, hstart, hquotes⟩
    cases standing before with
    | start h => exact absurd h hstart
    | bare h => exact ⟨before, after, rfl, h⟩
    | opened h => exact absurd (.inl h) hquotes
    | closed opened h hbefore => exact absurd (.inr ⟨opened, h, hbefore, rfl⟩) hquotes
    | strayed h =>
      obtain ⟨p, q, rfl, hp⟩ := h
      exact ⟨p, q ++ '"' :: after, by simp, hp⟩

def WrittenAs (field text : String) : Prop :=
  text = quote field ∨ text = field ∧ ',' ∉ field.toList ∧ '"' ∉ field.toList

theorem WrittenAs.written {field text : String} (h : WrittenAs field text) :
    Written field.toList text.toList := by
  rcases h with rfl | ⟨rfl, hcomma, hquote⟩
  · rw [quote, String.toList_ofList]
    exact .quoted field.toList
  · exact .bare _ fun c hc => ⟨fun h => hcomma (h ▸ hc), fun h => hquote (h ▸ hc)⟩

theorem splitFields_intercalate {fields texts : List String}
    (h : List.Forall₂ WrittenAs fields texts) (hne : fields ≠ []) :
    splitFields (",".intercalate texts) = .ok fields := by
  have hwritten : List.Forall₂ Written (fields.map String.toList) (texts.map String.toList) := by
    rw [List.forall₂_map_left_iff, List.forall₂_map_right_iff]
    exact h.imp fun _ _ => WrittenAs.written
  have hline : ",".intercalate texts =
      String.ofList ([','].intercalate (texts.map String.toList)) := by
    rw [← String.toList_inj]
    simp
  rw [hline, splitFields_ofList hwritten (by simpa using hne), List.map_map]
  simp

/-- Splitting undoes writing, and fails at nothing but quotes that are not closed or out of place. -/
theorem splitFields_exact :
    (∀ fields texts : List String, List.Forall₂ WrittenAs fields texts → fields ≠ [] →
      splitFields (",".intercalate texts) = .ok fields) ∧
      ∀ line : String,
        (splitFields line = .error .unterminated ↔ InQuotes line.toList []) ∧
        (splitFields line = .error .strayQuote ↔ ∃ before after,
          line.toList = before ++ '"' :: after ∧ ¬ FieldStart before ∧
            ¬ InQuotes before ('"' :: after)) := by
  refine ⟨fun fields texts => splitFields_intercalate, fun line => ⟨?_, ?_⟩⟩
  · rw [splitFields, map_eq_error_iff, splitFrom_eq_unterminated_iff, inQuotes_nil_iff]
  · rw [splitFields, map_eq_error_iff, splitFrom_eq_strayQuote_iff, strayed_iff]

def mixedFields : List String := ["a,b", "c", "\"q\"", "", "two\nlines"]

def mixedTexts : List String := ["\"a,b\"", "c", "\"\"\"q\"\"\"", "", "\"two\nlines\""]

theorem splitFields_exact_mixed :
    List.Forall₂ WrittenAs mixedFields mixedTexts ∧ mixedFields ≠ [] ∧
      splitFields (",".intercalate mixedTexts) = .ok mixedFields ∧
      InQuotes "c,\"a\"\"".toList [] ∧
      ∃ before after, "\"a\"b\",c".toList = before ++ '"' :: after ∧ ¬ FieldStart before ∧
        ¬ InQuotes before ('"' :: after) := by
  have hwritten : List.Forall₂ WrittenAs mixedFields mixedTexts :=
    .cons (.inl rfl) (.cons (.inr (by decide)) (.cons (.inl rfl) (.cons (.inr (by decide))
      (.cons (.inl rfl) .nil))))
  refine ⟨hwritten, by decide, splitFields_exact.1 _ _ hwritten (by decide), ?_, ?_⟩
  · exact (splitFields_exact.2 "c,\"a\"\"").1.1 rfl
  · exact (splitFields_exact.2 "\"a\"b\",c").2.1 rfl

end Daybook.Csv
