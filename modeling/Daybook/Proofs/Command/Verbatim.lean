import Daybook.Proofs.Command.Clauses
import Daybook.Proofs.Command.Leftmost

/-!
Literals in errors, as they stand in the line. Main statement: a date, an instant or a count that
is named in an error is a token of the line and a weekday character is in one, but for the last date
of the calendar behind the until of whole days, which is named as it is printed.
-/
namespace Daybook
open Outline
variable {line : String} {verb : Verb} {o : Outline} {b : List Token} {e : ParseError}

def IsToken (line text : String) : Prop :=
  ∃ l ∈ lex line, sliceBytes? line.toList l.span = some text.toList

theorem isToken_iff {text : String} : IsToken line text ↔ text.toList ∈ words line.toList := by
  constructor
  · rintro ⟨l, hl, hslice⟩
    obtain ⟨r, hr, rfl⟩ := List.mem_map.1 hl
    have htext : r.text = text.toList := Option.some.inj ((slice_of_mem_runs hr).symm.trans hslice)
    exact htext ▸ List.mem_map_of_mem hr
  · intro h
    obtain ⟨r, hr, htext⟩ := List.mem_map.1 h
    exact ⟨r.lexeme, List.mem_map_of_mem hr, htext ▸ slice_of_mem_runs hr⟩

instance (line text : String) : Decidable (IsToken line text) := decidable_of_iff _ isToken_iff.symm

theorem Instant.addDays?_midnight_eq_none_iff {d : Date} :
    (Instant.midnight d).addDays? 1 = none ↔ d = Date.last := by
  have hfirst := d.first_le
  have hlast := d.le_last
  have hrange : (-8272465632000 ≤ (midnight d).number + 86400 * 1 ∧
      (midnight d).number + 86400 * 1 ≤ 8272402473599) ↔ d.number ≠ Date.last.number := by
    simp only [midnight, onDate, Date.last]
    omega
  rw [addDays?, addSeconds?, ofNumber?, dite_eq_right_iff]
  simp only [hrange, reduceCtorEq, imp_false, not_not]
  exact ⟨Date.ext, fun h => h ▸ rfl⟩

namespace Command
variable {text : String}

theorem readDate_eq_error_iff : readDate text = .error e ↔
    (∃ cause, Date.read text = .error cause) ∧ e = .date text := by
  rw [readDate, mapError_eq_error_iff]
  constructor
  · rintro ⟨cause, hcause, rfl⟩
    exact ⟨⟨cause, hcause⟩, rfl⟩
  · rintro ⟨⟨cause, hcause⟩, rfl⟩
    exact ⟨cause, hcause, rfl⟩

/-- A bound of whole days fails if it is no date, or the last one. -/
theorem readDayBound_eq_error_iff : readDayBound text = .error e ↔
    readDate text = .error e ∨ Date.read text = .ok Date.last ∧ e = .date Date.last.text := by
  rw [readDayBound]
  cases hread : Date.read text with
  | error cause => simp [readDate, hread, mapError_error, bind, Except.bind]
  | ok date =>
    have hlast := Instant.addDays?_midnight_eq_none_iff (d := date)
    simp only [readDate, hread, mapError_ok, bind, Except.bind, reduceCtorEq, false_or,
      Except.ok.injEq]
    cases hnext : (Instant.midnight date).addDays? 1 with
    | some bound => simp [← hlast, hnext, pure, Except.pure]
    | none =>
      obtain rfl := hlast.1 hnext
      simp [throw, throwThe, MonadExceptOf.throw, eq_comm]

end Command

def Verb.word (verb : Verb) (line : List Char) (s : Span) : String :=
  String.ofList ((verb.body line)[s.start]?.getD [])

theorem Verb.mem_words_of_mem_body (verb : Verb) {line w : List Char} (h : w ∈ verb.body line) :
    w ∈ words line := by
  have hkept : w ∈ verb.kept line := List.mem_of_mem_drop h
  rw [Verb.kept] at hkept
  split at hkept
  · exact List.mem_of_mem_filter hkept
  · exact hkept

namespace Outline

theorem repeatsClauses_single {i : Nat} {r : Option Repeats} {bound : Kind}
    (h : RepeatsShape i b r) : ∀ c ∈ repeatsClauses bound r, c.span.stop = c.span.start + 1 := by
  cases h <;> simp [repeatsClauses]

theorem literal_single (h : Shape b verb o) {c : Clause} (hc : c ∈ o.clauses)
    (hliteral : c.kind.isLiteral = true) : c.span.stop = c.span.start + 1 := by
  cases h with
  | createTimed _ hr =>
    simp only [clauses, List.mem_cons] at hc
    obtain rfl | rfl | rfl | hc := hc
    · cases hliteral
    · rfl
    · rfl
    · exact repeatsClauses_single hr c hc
  | createAllDay _ _ _ _ hr =>
    simp only [clauses, List.mem_cons] at hc
    obtain rfl | rfl | hc := hc
    · cases hliteral
    · rfl
    · exact repeatsClauses_single hr c hc
  | _ =>
    simp only [clauses, List.mem_cons, List.not_mem_nil, or_false] at hc
    grind [Kind.isLiteral]

end Outline

namespace Outlined

theorem exists_word (h : Outlined line.toList verb o) {s : Span} (hs : s ∈ spans o.parts) :
    ∃ w, (verb.body line.toList)[s.start]? = some w ∧
      verb.word line.toList s = String.ofList w := by
  obtain ⟨j, hlaid, -⟩ := laid_parts (read_eq_ok_iff.1 h.read_eq)
  have hlt := (span_of_laid hlaid hs).2
  rw [List.length_map] at hlt
  have hget : (verb.body line.toList)[s.start]? = some (verb.body line.toList)[s.start] :=
    List.getElem?_eq_getElem (by omega)
  exact ⟨_, hget, by rw [Verb.word, hget, Option.getD_some]⟩

theorem isToken_word (h : Outlined line.toList verb o) {s : Span} (hs : s ∈ spans o.parts) :
    IsToken line (verb.word line.toList s) := by
  obtain ⟨w, hget, hword⟩ := h.exists_word hs
  rw [hword, isToken_iff, String.toList_ofList]
  exact verb.mem_words_of_mem_body (List.mem_of_getElem? hget)

theorem slice_literal {d : Draft} (h : Outlined line.toList verb o)
    (hd : d.Faithful verb.tokens.length) (htext : d.text = verb.left line.toList) {c : Clause}
    (hc : c ∈ o.clauses) (hliteral : c.kind.isLiteral = true) :
    d.source.slice c.span = verb.word line.toList c.span := by
  have hspan : c.span ∈ spans o.parts := map_span_clauses o ▸ List.mem_map_of_mem hc
  have hone := literal_single (read_eq_ok_iff.1 h.read_eq) hc hliteral
  obtain ⟨w, hw, hword⟩ := h.exists_word hspan
  rw [hword, h.slice_word hd htext hspan hone hw]

/-- What a line with an outline fails with is told by its words. -/
theorem parse_eq_error_iff (h : Outlined line.toList verb o) :
    Command.parse line = .error e ↔ ∃ c, Command.FailsFirst (verb.word line.toList) o c e := by
  obtain ⟨d, hparse, hd, htext, -⟩ := h.exists_draft
  rw [hparse, Command.ofOutline_eq_error_iff h.read_eq]
  exact exists_congr fun c =>
    ⟨fun hc => hc.congr fun c hc hliteral => (h.slice_literal hd htext hc hliteral).symm,
      fun hc => hc.congr fun c hc hliteral => h.slice_literal hd htext hc hliteral⟩

end Outlined

def UntilLast (line : String) : Prop :=
  ∃ verb o c, Outlined line.toList verb o ∧ c ∈ o.clauses ∧ c.kind = .dayBound ∧
    Date.read (verb.word line.toList c.span) = .ok Date.last ∧
    ∀ d ∈ o.clauses, d.span.start < c.span.start → d.failure? (verb.word line.toList) = none

inductive Names (line : String) : ParseError → Prop where
  | line : Names line (.unrecognized line)
  | misfit (verb : Verb) (cause : Misfit) : Names line (.misfit verb cause)
  | date {l : String} : IsToken line l → Names line (.date l)
  | instant {l : String} : IsToken line l → Names line (.instant l)
  | count {l : String} : IsToken line l → Names line (.count l)
  | weekday {word : String} {a : Char} :
      IsToken line word → a ∈ word.toList → Names line (.weekday a)
  | last : UntilLast line → Names line (.date Date.last.text)

theorem Outlined.names {c : Clause} (h : Outlined line.toList verb o)
    (hc : Command.FailsFirst (verb.word line.toList) o c e) : Names line e := by
  have hspan : c.span ∈ spans o.parts := map_span_clauses o ▸ List.mem_map_of_mem hc.mem
  have hword : IsToken line (verb.word line.toList c.span) := h.isToken_word hspan
  have hfails := hc.fails
  obtain ⟨span, kind⟩ := c
  rw [Clause.failure?] at hfails
  cases kind with
  | name | property | value | path => cases hfails
  | date =>
    obtain ⟨-, rfl⟩ := Command.readDate_eq_error_iff.1 (failure?_eq_some_iff.1 hfails)
    exact .date hword
  | instant =>
    obtain ⟨_, -, rfl⟩ := mapError_eq_error_iff.1 (failure?_eq_some_iff.1 hfails)
    exact .instant hword
  | dayBound =>
    obtain hdate | ⟨hlast, rfl⟩ :=
      Command.readDayBound_eq_error_iff.1 (failure?_eq_some_iff.1 hfails)
    · obtain ⟨-, rfl⟩ := Command.readDate_eq_error_iff.1 hdate
      exact .date hword
    · refine .last ⟨verb, o, _, h, hc.mem, rfl, hlast, fun d hd hlt => ?_⟩
      by_contra hd'
      exact absurd (hc.first d hd hd') (Nat.not_le.2 hlt)
  | weekdays =>
    obtain ⟨a, ha, rfl⟩ := Command.readWeekdays_eq_error_iff.1 (failure?_eq_some_iff.1 hfails)
    obtain ⟨before, after, hsplit, -⟩ := WeekdaySet.readLetters_eq_error_iff.1 ha
    exact .weekday hword (by simp [hsplit])
  | count =>
    have hcount := failure?_eq_some_iff.1 hfails
    rw [Command.readCount] at hcount
    split at hcount <;> cases hcount
    exact .count hword

namespace Command

theorem names_of_parse (h : parse line = .error e) : Names line e := by
  obtain ⟨verb, o, ho⟩ | hbad | ⟨verb, cause, hbad⟩ := parse_cases line
  · obtain ⟨c, hc⟩ := ho.parse_eq_error_iff.1 h
    exact ho.names hc
  · cases hbad.symm.trans h
    exact .line
  · cases hbad.symm.trans h
    exact .misfit verb cause

theorem parse_of_untilLast (h : UntilLast line) : parse line = .error (.date Date.last.text) := by
  obtain ⟨verb, o, c, ho, hc, hkind, hlast, hbefore⟩ := h
  refine ho.parse_eq_error_iff.2 ⟨c, hc, by rw [hkind]; rfl, ?_, fun d hd hfails => ?_⟩
  · rw [Clause.failure?, hkind]
    exact failure?_eq_some_iff.2 (readDayBound_eq_error_iff.2 (.inr ⟨hlast, rfl⟩))
  · by_contra hlt
    exact hfails (hbefore d hd (Nat.not_le.1 hlt))

/-- An instant or a count that is named in an error is a token of the line, and a weekday character
stands in one. So it is with a date, unless the line goes until the last date of the calendar. That
date is always named as it is printed. -/
theorem parse_verbatim (line : String) :
    (∀ l, parse line = .error (.instant l) → IsToken line l) ∧
      (∀ l, parse line = .error (.count l) → IsToken line l) ∧
      (∀ a, parse line = .error (.weekday a) → ∃ word, IsToken line word ∧ a ∈ word.toList) ∧
      (∀ l, parse line = .error (.date l) →
        IsToken line l ∨ UntilLast line ∧ l = Date.last.text) ∧
      (UntilLast line → parse line = .error (.date Date.last.text)) := by
  refine ⟨fun l h => ?_, fun l h => ?_, fun a h => ?_, fun l h => ?_, parse_of_untilLast⟩
  · cases names_of_parse h with
    | instant hl => exact hl
  · cases names_of_parse h with
    | count hl => exact hl
  · cases names_of_parse h with
    | weekday hword ha => exact ⟨_, hword, ha⟩
  · cases names_of_parse h with
    | date hl => exact .inl hl
    | last huntil => exact .inr ⟨huntil, rfl⟩

def overlong : String := "create event X on 2024-05-06 repeats M until +0262142-12-31"

/-- The date is no token as it is named. -/
theorem parse_overlong :
    parse overlong = .error (.date "+262142-12-31") ∧ ¬ IsToken overlong "+262142-12-31" := by
  decide +kernel

def roundHour : String := "create event X --autodecline from 2024-05-06T9:0 to 2024-05-06T10"

theorem parse_verbatim_roundHour :
    parse roundHour = .error (.instant "2024-05-06T10") ∧ IsToken roundHour "2024-05-06T10" ∧
      UntilLast overlong := by
  have hround : parse roundHour = .error (.instant "2024-05-06T10") := by decide +kernel
  have hlong : parse overlong = .error (.date "+262142-12-31") := by decide +kernel
  have hno : ¬ IsToken overlong "+262142-12-31" := by decide +kernel
  obtain ⟨-, -, -, hdate, -⟩ := parse_verbatim overlong
  exact ⟨hround, (parse_verbatim roundHour).1 _ hround, ((hdate _ hlong).resolve_left hno).1⟩

end Command
end Daybook
