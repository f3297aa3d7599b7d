import Daybook.Proofs.Command.Clauses

/-!
Lines in another style: other separators, and other spellings of keywords. Main statement: a command
does not depend on them, but for the blanks inside its name and its new value.
-/
namespace Daybook
open Outline
variable {b : List Token} {verb : Verb} {o : Outline} {text text' : Span → String}

namespace Outline

def free : Outline → List Span
  | createTimed name _ _ _ | createAllDay name _ _ => [name]
  | editSingle _ name _ _ value | editMany _ name _ value => [name, value]
  | printOn _ | printRange _ _ | exportTo _ _ | showStatus _ => []

theorem mem_spans_of_mem_free {s : Span} (h : s ∈ o.free) : s ∈ spans o.parts := by
  cases o with
  | editMany property name start value =>
    simp only [free, List.mem_cons, List.not_mem_nil, or_false] at h
    obtain rfl | rfl := h <;> cases start <;> simp [parts, spans]
  | editSingle property name start stop value =>
    simp only [free, List.mem_cons, List.not_mem_nil, or_false] at h
    obtain rfl | rfl := h <;> simp [parts, spans]
  | _ => simp_all [free, parts, spans]

end Outline

namespace Command

def retexted (f : String → String) : Command → Command
  | createTimed name start stop rule declines => createTimed (f name) start stop rule declines
  | createAllDay name date rule declines => createAllDay (f name) date rule declines
  | editSingle property name start stop value =>
    editSingle property (f name) start stop (f value)
  | editFrom property name start value => editFrom property (f name) start (f value)
  | editNamed property name value => editNamed property (f name) (f value)
  | queryOn date => queryOn date
  | queryRange start stop => queryRange start stop
  | exportTo dialect path => exportTo dialect path
  | showStatus instant => showStatus instant

theorem readRule?_congr {bound : String → Except ParseError Instant} {i : Nat} {l : List Token}
    {r : Option Repeats} (h : RepeatsShape i l r)
    (hone : ∀ s ∈ spans (repeatsParts r), s.stop = s.start + 1 → text' s = text s) :
    readRule? text' bound r = readRule? text bound r := by
  cases h with
  | none => rfl
  | count x y =>
    have hweekdays := hone ⟨i + 1, i + 2⟩ (by simp [repeatsParts, spans]) rfl
    have hcount := hone ⟨i + 3, i + 4⟩ (by simp [repeatsParts, spans]) rfl
    simp only [readRule?, readRule, hweekdays, hcount]
  | bound x y =>
    have hweekdays := hone ⟨i + 1, i + 2⟩ (by simp [repeatsParts, spans]) rfl
    have hbound := hone ⟨i + 3, i + 4⟩ (by simp [repeatsParts, spans]) rfl
    simp only [readRule?, readRule, hweekdays, hbound]

/-- Where all clauses of one word have the same texts, commands differ in free text only. -/
theorem ofOutline_retexted (f : String → String) (flagged : Bool) (h : Shape b verb o)
    (hone : ∀ s ∈ spans o.parts, s.stop = s.start + 1 → text' s = text s)
    (hfree : ∀ s ∈ o.free, f (text' s) = f (text s)) :
    retexted f <$> ofOutline text' flagged o = retexted f <$> ofOutline text flagged o := by
  cases h with
  | @createTimed n r hat hr =>
    have hname := hfree ⟨0, n⟩ (by simp [free])
    have hstart := hone ⟨n + 1, n + 2⟩ (by simp [parts, spans]) rfl
    have hstop := hone ⟨n + 3, n + 4⟩ (by simp [parts, spans]) rfl
    have hrule : readRule? text' readInstant r = readRule? text readInstant r :=
      readRule?_congr hr fun s hs => hone s (by simp [parts, spans, hs])
    simp only [ofOutline, map_bind, map_pure, retexted, hname, hstart, hstop, hrule]
  | @createAllDay n r hno hfirst hpos hlen hr =>
    have hname := hfree ⟨0, n⟩ (by simp [free])
    have hdate := hone ⟨n + 1, n + 2⟩ (by simp [parts, spans]) rfl
    have hrule : readRule? text' readDayBound r = readRule? text readDayBound r :=
      readRule?_congr hr fun s hs => hone s (by simp [parts, spans, hs])
    simp only [ofOutline, map_bind, map_pure, retexted, hname, hdate, hrule]
  | @editSingle k x y v =>
    have hproperty := hone ⟨0, 1⟩ (by simp [parts, spans]) rfl
    have hname := hfree ⟨1, k⟩ (by simp [free])
    have hstart := hone ⟨k + 1, k + 2⟩ (by simp [parts, spans]) rfl
    have hstop := hone ⟨k + 3, k + 4⟩ (by simp [parts, spans]) rfl
    have hvalue := hfree ⟨k + 5, b.length⟩ (by simp [free])
    simp only [ofOutline, map_bind, map_pure, retexted, hproperty, hname, hstart, hstop, hvalue]
  | @editFrom k x v =>
    have hproperty := hone ⟨0, 1⟩ (by simp [parts, spans]) rfl
    have hname := hfree ⟨1, k⟩ (by simp [free])
    have hstart := hone ⟨k + 1, k + 2⟩ (by simp [parts, spans]) rfl
    have hvalue := hfree ⟨k + 3, b.length⟩ (by simp [free])
    simp only [ofOutline, map_bind, map_pure, retexted, hproperty, hname, hstart, hvalue]
  | @editNamed k v =>
    have hproperty := hone ⟨0, 1⟩ (by simp [parts, spans]) rfl
    have hname := hfree ⟨1, k⟩ (by simp [free])
    have hvalue := hfree ⟨k + 1, b.length⟩ (by simp [free])
    simp only [ofOutline, map_pure, retexted, hproperty, hname, hvalue]
  | printOn | showStatus | exportCal | exportGoogle =>
    have hfirst := hone ⟨0, 1⟩ (by simp [parts, spans]) rfl
    simp only [ofOutline, hfirst]
  | printRange =>
    have hstart := hone ⟨0, 1⟩ (by simp [parts, spans]) rfl
    have hstop := hone ⟨2, 3⟩ (by simp [parts, spans]) rfl
    simp only [ofOutline, hstart, hstop]

def squeeze (text : String) : String := String.ofList ([' '].intercalate (words text.toList))

def squeezed (c : Command) : Command := c.retexted squeeze

theorem retexted_id (c : Command) : c.retexted id = c := by cases c <;> rfl

/-- The second line has the tokens of the first and the same words in its clauses. So the verb, the
flags that are cut out, and the keywords between the clauses may be spelled another way, and any
separators may stand between the words and around them. -/
structure Restyled (verb : Verb) (o : Outline) (line line' : List Char) : Prop where
  tokens : tokensOf line' = tokensOf line
  clauses : ∀ s ∈ spans o.parts,
    (verb.body line').extract s.start s.stop = (verb.body line).extract s.start s.stop

theorem outlined_of_tokens {line line' : List Char} (h : Outlined line verb o)
    (htokens : tokensOf line' = tokensOf line) : Outlined line' verb o where
  verb_eq := by rw [htokens, h.verb_eq]
  read_eq := by rw [map_ofWord_body, htokens, ← map_ofWord_body, h.read_eq]

theorem Restyled.exists_slices {line line' : String} {d d' : Draft} {s : Span}
    (hr : Restyled verb o line.toList line'.toList) (h : Outlined line.toList verb o)
    (hd : d.Faithful verb.tokens.length) (htext : d.text = verb.left line.toList)
    (hd' : d'.Faithful verb.tokens.length) (htext' : d'.text = verb.left line'.toList)
    (hs : s ∈ spans o.parts) :
    ∃ p p', d.source.slice s = String.ofList p ∧ d'.source.slice s = String.ofList p' ∧
      Phrase p ∧ Phrase p' ∧ words p' = words p ∧ (words p).length = s.stop - s.start := by
  obtain ⟨p, hslice, hp, hwords, hlen⟩ := h.exists_slice hd htext hs
  obtain ⟨p', hslice', hp', hwords', -⟩ :=
    (outlined_of_tokens h hr.tokens).exists_slice hd' htext' hs
  rw [hr.clauses s hs, ← hwords] at hwords'
  exact ⟨p, p', hslice, hslice', hp, hp', hwords', hlen⟩

/-- A line in another style is a command too, with the same values and flag, the same property and
path, and the same words in its name and its new value. Where these stand in both lines as the same
texts, and no flag is cut out of them, it is the same command. -/
theorem parse_restyled {line : String} {c : Command} (h : parse line = .ok c) :
    ∃ verb o, Outlined line.toList verb o ∧ ∀ line' : String,
      Restyled verb o line.toList line'.toList →
        ∃ c', parse line' = .ok c' ∧ c'.squeezed = c.squeezed ∧
          ((∀ s ∈ o.free, ∃ p, (words p).length = s.stop - s.start ∧
            Stands verb line.toList s.start p ∧ Stands verb line'.toList s.start p) → c' = c) := by
  obtain ⟨verb, o, ho⟩ := exists_outlined h
  refine ⟨verb, o, ho, fun line' hr => ?_⟩
  have ho' := outlined_of_tokens ho hr.tokens
  have hshape := read_eq_ok_iff.1 ho.read_eq
  obtain ⟨d, hparse, hd, htext, hflagged⟩ := ho.exists_draft
  obtain ⟨d', hparse', hd', htext', hflagged'⟩ := ho'.exists_draft
  rw [hr.tokens, ← hflagged] at hflagged'
  have hone : ∀ s ∈ spans o.parts, s.stop = s.start + 1 →
      d'.source.slice s = d.source.slice s := by
    intro s hs hlen
    obtain ⟨p, p', hslice, hslice', hp, hp', hwords, hcount⟩ :=
      hr.exists_slices ho hd htext hd' htext' hs
    obtain ⟨w, hw⟩ := List.length_eq_one_iff.1 (hcount.trans (by omega : s.stop - s.start = 1))
    rw [hslice, hslice', hp.eq_of_words hw, hp'.eq_of_words (hwords.trans hw)]
  -- the two readings differ at most by a function that makes the free texts equal
  have hsame : ∀ f : String → String,
      (∀ s ∈ o.free, f (d'.source.slice s) = f (d.source.slice s)) →
        retexted f <$> parse line' = retexted f <$> parse line := by
    intro f hf
    rw [hparse', hparse, hflagged']
    exact ofOutline_retexted f d.flagged hshape hone hf
  have hsqueeze : ∀ s ∈ o.free, squeeze (d'.source.slice s) = squeeze (d.source.slice s) := by
    intro s hs
    obtain ⟨p, p', hslice, hslice', -, -, hwords, -⟩ :=
      hr.exists_slices ho hd htext hd' htext' (mem_spans_of_mem_free hs)
    rw [squeeze, squeeze, hslice, hslice', String.toList_ofList, String.toList_ofList, hwords]
  have hsqueezed := hsame squeeze hsqueeze
  rw [h] at hsqueezed
  cases hc' : parse line' with
  | error reason =>
    rw [hc'] at hsqueezed
    cases hsqueezed
  | ok c' =>
    rw [hc'] at hsqueezed
    refine ⟨c', rfl, Except.ok.inj hsqueezed, fun hstands => ?_⟩
    have hequal := hsame id fun s hs => by
      obtain ⟨p, hlen, hp, hp'⟩ := hstands s hs
      obtain ⟨j, hlaid, -⟩ := laid_parts hshape
      have hlt := (span_of_laid hlaid (mem_spans_of_mem_free hs)).2.1
      rw [id, id, hp.slice ho.verb_eq hd htext hlen hlt,
        hp'.slice ho'.verb_eq hd' htext' hlen hlt]
    rw [h, hc'] at hequal
    have hcommands := Except.ok.inj hequal
    rwa [retexted_id, retexted_id] at hcommands

def tripLine : String := "create event a  to b on 2024-5-7 --autodecline"

def loudTripLine : String := "\tCREATE Event\na  to b ON  2024-5-7 --AutoDecline "

def trip : Command := .createAllDay "a  to b" ⟨739012, by decide, by decide⟩ none true

theorem parse_loudTripLine : parse tripLine = .ok trip ∧ parse loudTripLine = .ok trip := by
  have hparse : parse tripLine = .ok trip := by decide +kernel
  have htrip : Outlined tripLine.toList .createEvent (.createAllDay ⟨0, 3⟩ ⟨4, 5⟩ none) :=
    ⟨by decide +kernel, by decide +kernel⟩
  obtain ⟨verb, o, ho, hall⟩ := parse_restyled hparse
  obtain ⟨rfl, rfl⟩ := ho.unique htrip
  obtain ⟨c', hparse', -, hsame⟩ := hall loudTripLine ⟨by decide +kernel, by decide +kernel⟩
  have hname : Phrase "a  to b".toList :=
    ⟨⟨'a', "  to b".toList, by decide, by decide⟩, ⟨"a  to ".toList, 'b', by decide, by decide⟩⟩
  have hstands : ∀ s ∈ (Outline.createAllDay ⟨0, 3⟩ ⟨4, 5⟩ none).free, ∃ p,
      (words p).length = s.stop - s.start ∧ Stands .createEvent tripLine.toList s.start p ∧
        Stands .createEvent loudTripLine.toList s.start p := by
    intro s hs
    obtain rfl := List.mem_singleton.1 hs
    refine ⟨"a  to b".toList, by decide, ⟨hname, fun _ => by decide, ?_⟩,
      ⟨hname, fun _ => by decide, ?_⟩⟩
    · exact ⟨"create event".toList, ' ', " on 2024-5-7 --autodecline".toList, by decide +kernel,
        by decide, detached_cons (by decide), by decide +kernel⟩
    · exact ⟨"\tCREATE Event".toList, '\n', " ON  2024-5-7 --AutoDecline ".toList,
        by decide +kernel, by decide, detached_cons (by decide), by decide +kernel⟩
  rw [hsame hstands] at hparse'
  exact ⟨hparse, hparse'⟩

end Command
end Daybook
