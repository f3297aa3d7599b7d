import Daybook.Proofs.Command.Clauses
import Daybook.Proofs.Command.ReadBack
import Daybook.Proofs.Recurrence.Until
import Daybook.Proofs.Session.Recurring

/-!
Create commands with an until, from the line to the calendar. Main statement: a series of whole days
has one on each of its dates up to and with the date behind the until; a timed series has one on each
of its dates at which it starts before the instant behind the until.
-/
namespace Daybook
open Outline
variable {b : List Token} {verb : Verb} {o : Outline} {text : Span → String} {flagged : Bool}
  {line : String} {c : Command} {made : Except EventError Event} {weekdays : WeekdaySet}
  {bound : Moment} {declines : Bool}

def Outline.until? : Outline → Option Span
  | createTimed _ _ _ (some ⟨_, .bound t⟩) | createAllDay _ _ (some ⟨_, .bound t⟩) => some t
  | _ => none

def UntilWord (line : List Char) (word : String) : Prop :=
  ∃ o t, Outlined line .createEvent o ∧ o.until? = some t ∧
    (Verb.createEvent.body line)[t.start]?.map String.ofList = some word

namespace Command

def readUntil : Command → String → Except ParseError Instant
  | createAllDay .. => readDayBound
  | _ => readInstant

theorem exists_bound_of_readRule? {read : String → Except ParseError Instant} {i : Nat}
    {l : List Token} {r : Option Repeats} (hshape : RepeatsShape i l r)
    (h : readRule? text read r = .ok (some ⟨weekdays, .before bound⟩)) :
    ∃ w t u, r = some ⟨w, .bound t⟩ ∧ t.stop = t.start + 1 ∧ read (text t) = .ok u ∧
      bound = Instant.moment u := by
  cases hshape with
  | none => cases h
  | count x y =>
    obtain ⟨rule, hread, hrule⟩ := readRule?_some_iff.1 h
    simp only [readRule, bind_eq_ok_iff] at hread
    obtain ⟨_, -, _, -, hpure⟩ := hread
    cases hpure
    cases hrule
  | bound x y =>
    obtain ⟨rule, hread, hrule⟩ := readRule?_some_iff.1 h
    simp only [readRule, bind_eq_ok_iff] at hread
    obtain ⟨_, -, last, hlast, hpure⟩ := hread
    cases hpure
    cases hrule
    exact ⟨_, _, _, rfl, rfl, hlast, rfl⟩

theorem declines_of_template {rule : Option Rule}
    (h : c.template? = some (made, rule, declines)) : c.declines = declines := by
  cases c <;> cases h <;> rfl

theorem verb_of_template {rule : Option Rule} (h : c.template? = some (made, rule, declines)) :
    c.verb = .createEvent := by
  cases c <;> cases h <;> rfl

theorem exists_until_of_ofOutline (hshape : Shape b verb o)
    (h : ofOutline text flagged o = .ok c)
    (hc : c.template? = some (made, some ⟨weekdays, .before bound⟩, declines)) :
    verb = .createEvent ∧ ∃ t u, o.until? = some t ∧ t ∈ spans o.parts ∧ t.stop = t.start + 1 ∧
      c.readUntil (text t) = .ok u ∧ bound = Instant.moment u := by
  obtain rfl : verb = .createEvent := (verb_of_ofOutline hshape h).symm.trans (verb_of_template hc)
  cases hshape with
  | createTimed hat hr =>
    simp only [ofOutline, bind_eq_ok_iff] at h
    obtain ⟨_, -, _, -, rule, hrule, hpure⟩ := h
    cases hpure
    cases hc
    obtain ⟨w, t, u, rfl, hone, ht⟩ := exists_bound_of_readRule? hr hrule
    exact ⟨rfl, t, u, rfl, by simp [parts, repeatsParts, spans], hone, ht⟩
  | createAllDay hno hfirst hpos hlen hr =>
    simp only [ofOutline, bind_eq_ok_iff] at h
    obtain ⟨_, -, rule, hrule, hpure⟩ := h
    cases hpure
    cases hc
    obtain ⟨w, t, u, rfl, hone, ht⟩ := exists_bound_of_readRule? hr hrule
    exact ⟨rfl, t, u, rfl, by simp [parts, repeatsParts, spans], hone, ht⟩

/-- The bound of a rule is read off the word behind the until. -/
theorem exists_untilWord (hparse : parse line = .ok c)
    (hc : c.template? = some (made, some ⟨weekdays, .before bound⟩, declines)) :
    ∃ word u, UntilWord line.toList word ∧ c.readUntil word = .ok u ∧ bound = Instant.moment u := by
  obtain ⟨verb, o, ho⟩ := exists_outlined hparse
  obtain ⟨d, hread, hd, htext, -⟩ := ho.exists_draft
  have hshape := read_eq_ok_iff.1 ho.read_eq
  obtain ⟨rfl, t, u, huntil, hmem, hone, hu, rfl⟩ :=
    exists_until_of_ofOutline hshape (hread.symm.trans hparse) hc
  obtain ⟨j, hlaid, -⟩ := laid_parts hshape
  have hlt := (span_of_laid hlaid hmem).2
  rw [List.length_map] at hlt
  obtain ⟨w, hword⟩ : ∃ w, (Verb.createEvent.body line.toList)[t.start]? = some w :=
    ⟨_, List.getElem?_eq_getElem (by omega)⟩
  refine ⟨_, u, ⟨o, t, ho, huntil, by rw [hword, Option.map_some]⟩, ?_, rfl⟩
  rw [← ho.slice_word hd htext hmem hone hword, hu]

end Command

namespace Session
variable {s : Session}

theorem bringsIn_expand {template : Event} {rule : Rule} (hroom : s.sink.room = none)
    (hparse : Command.parse line = .ok c) (hpolicy : Reply.effective s.policy c.declines = .warn)
    (hc : c.template? = some (.ok template, some rule, declines)) :
    s.BringsIn (rule.expand template) (s.execute line) := by
  rw [Command.declines_of_template hc] at hpolicy
  obtain ⟨hstore, hresult⟩ := run_of_accepted hroom hc (.inl hpolicy)
  rw [execute, hparse]
  exact bringsIn_of_addAll hstore hresult

/-- A create command with an until where overlaps are only warned of and the output has no limit.
The date behind the until of whole days counts; a timed occurrence must start before the instant. -/
theorem execute_until (hroom : s.sink.room = none) (hparse : Command.parse line = .ok c)
    (hpolicy : Reply.effective s.policy c.declines = .warn) :
    (∀ name first weekdays bound declines template,
      c = .createAllDay name first (some ⟨weekdays, .before bound⟩) declines →
      Event.onDay name first = .ok template →
      ∃ word last es, UntilWord line.toList word ∧ Command.readDate word = .ok last ∧
        s.BringsIn es (s.execute line) ∧
        OneEach (fun d => first ≤ d ∧ d ≤ last ∧ d.weekday ∈ weekdays)
          (fun d e => Event.onDay name d = .ok e) es) ∧
      ∀ name start stop weekdays bound declines template,
        c = .createTimed name start stop (some ⟨weekdays, .before bound⟩) declines →
        Event.timed name start stop = .ok template →
        (∀ d, start.date ≤ d ∧ d < Date.last ∧ d.weekday ∈ weekdays ∧ start.onSameTime d < bound →
          ∃ last, (start.onSameTime d).addSeconds? template.duration = some last) →
        ∃ word u es, UntilWord line.toList word ∧ Command.readInstant word = .ok u ∧ bound = u ∧
          s.BringsIn es (s.execute line) ∧
          OneEach (fun d => start.date ≤ d ∧ d < Date.last ∧ d.weekday ∈ weekdays ∧
              start.onSameTime d < u)
            (fun d e => template.movedTo? (start.onSameTime d) = some e) es := by
  have hending : ∀ weekdays bound, (Rule.mk weekdays (.before bound)).ending = .before bound :=
    fun _ _ => rfl
  refine ⟨?_, ?_⟩
  · rintro name first weekdays bound declines template rfl htemplate
    have hc : (Command.createAllDay name first (some ⟨weekdays, .before bound⟩) declines).template? =
        some (.ok template, some ⟨weekdays, .before bound⟩, declines) := by
      rw [Command.template?, htemplate]
    obtain ⟨word, u, hword, hread, rfl⟩ := Command.exists_untilWord hparse hc
    obtain ⟨last, hlast, hbound⟩ := Command.readDayBound_eq_ok_iff.1 hread
    exact ⟨word, last, _, hword, hlast, bringsIn_expand hroom hparse hpolicy hc,
      Rule.oneEach_expand_onDay htemplate (hending weekdays _) hbound⟩
  · rintro name start stop weekdays bound declines template rfl htemplate hends
    have hc : (Command.createTimed name start stop (some ⟨weekdays, .before bound⟩)
        declines).template? = some (.ok template, some ⟨weekdays, .before bound⟩, declines) := by
      rw [Command.template?, htemplate]
    obtain ⟨word, u, hword, hread, rfl⟩ := Command.exists_untilWord hparse hc
    obtain ⟨-, -, rfl, -⟩ := Event.of_timed htemplate
    refine ⟨word, u, _, hword, hread, rfl, bringsIn_expand hroom hparse hpolicy hc,
      Rule.oneEach_expand (hending weekdays _) fun d hd => ?_⟩
    exact Event.exists_movedTo?_iff.2
      (hends d ⟨hd.1, hd.2.1, hd.2.2.1, Moment.coe_lt_coe.2 hd.2.2.2⟩)

def restLine : String := "create event a on 2024-5-20 repeats MTW until 2024-5-21"

def standupLine : String :=
  "create event b from 2024-5-20T9:00 to 2024-5-20T10:00 repeats MTW until 2024-5-22T9:00"

def monday : Date := ⟨739025, by decide, by decide⟩

def firstWeekdays : WeekdaySet := ⟨0x07#7⟩

def standup : Event :=
  ⟨"b", ⟨63851792400, by decide, by decide⟩, ⟨63851796000, by decide, by decide⟩, false, "", "",
    true, by decide⟩

def wednesday : Instant := ⟨63851932800, by decide, by decide⟩

def wednesdayNine : Instant := ⟨63851965200, by decide, by decide⟩

/-- Both have an event on the Monday and one on the Tuesday. -/
theorem execute_until_tuesday :
    (∃ word last es, UntilWord restLine.toList word ∧ Command.readDate word = .ok last ∧
      (start .warn Sink.unlimited ⟨[], []⟩).BringsIn es
        ((start .warn Sink.unlimited ⟨[], []⟩).execute restLine) ∧
      OneEach (fun d => monday ≤ d ∧ d ≤ last ∧ d.weekday ∈ firstWeekdays)
        (fun d e => Event.onDay "a" d = .ok e) es) ∧
      ∃ word u es, UntilWord standupLine.toList word ∧ Command.readInstant word = .ok u ∧
        (wednesdayNine : Moment) = u ∧
        (start .warn Sink.unlimited ⟨[], []⟩).BringsIn es
          ((start .warn Sink.unlimited ⟨[], []⟩).execute standupLine) ∧
        OneEach (fun d => standup.start.date ≤ d ∧ d < Date.last ∧ d.weekday ∈ firstWeekdays ∧
            standup.start.onSameTime d < u)
          (fun d e => standup.movedTo? (standup.start.onSameTime d) = some e) es := by
  have hrest : Command.parse restLine = .ok (.createAllDay "a" monday
      (some ⟨firstWeekdays, .before wednesday⟩) false) := by
    decide +kernel
  have hstandup : Command.parse standupLine = .ok (.createTimed "b" standup.start standup.stop
      (some ⟨firstWeekdays, .before wednesdayNine⟩) false) := by
    decide +kernel
  have hends : ∀ d : Date, standup.start.date ≤ d ∧ d < Date.last ∧ d.weekday ∈ firstWeekdays ∧
      standup.start.onSameTime d < (wednesdayNine : Moment) →
      ∃ last, (standup.start.onSameTime d).addSeconds? standup.duration = some last := by
    rintro d ⟨-, -, -, hlt⟩
    have hfirst := (standup.start.onSameTime d).first_le
    have hduration : standup.duration = 3600 := by decide
    rw [Moment.coe_lt_coe, Instant.lt_def, wednesdayNine] at hlt
    rw [hduration]
    exact ⟨⟨(standup.start.onSameTime d).number + 3600, by omega, by simp only at hlt; omega⟩,
      Instant.addSeconds?_eq_some_iff.2 rfl⟩
  exact ⟨(execute_until rfl hrest rfl).1 _ _ _ _ _ _ rfl (by rfl),
    (execute_until rfl hstandup rfl).2 _ _ _ _ _ _ standup rfl (by decide +kernel) hends⟩

end Session
end Daybook
