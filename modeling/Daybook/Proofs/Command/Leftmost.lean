import Daybook.Command.Values
import Daybook.Proofs.Command.Parts
import Daybook.Proofs.Results

/-!
Literals that are no values. Main statement: what was read off tokens becomes a command exactly if
every literal is a value of the kind that its place asks for, and else the error is that of the
leftmost literal that is none.
-/
namespace Daybook

/-- The first result in a list is that of the least entry that has one. -/
theorem findSome?_eq_some_iff_of_lt {α β : Type} {f : α → Option β} {place : α → Nat} {l : List α}
    {b : β} (h : l.Pairwise fun x y => place x < place y) :
    l.findSome? f = some b ↔
      ∃ a ∈ l, f a = some b ∧ ∀ x ∈ l, f x ≠ none → place a ≤ place x := by
  induction l with
  | nil => simp
  | cons a l ih =>
    obtain ⟨hbehind, hl⟩ := List.pairwise_cons.1 h
    cases ha : f a with
    | none => simp [ha, ih hl]
    | some c =>
      rw [List.findSome?_cons, ha]
      constructor
      · intro hc
        refine ⟨a, List.mem_cons_self, ha.trans hc, fun x hx _ => ?_⟩
        obtain rfl | hx := List.mem_cons.1 hx
        · exact Nat.le_refl _
        · exact Nat.le_of_lt (hbehind x hx)
      · rintro ⟨x, hx, hfx, hfirst⟩
        have hle := hfirst a List.mem_cons_self (by simp [ha])
        obtain rfl | hx := List.mem_cons.1 hx
        · exact ha.symm.trans hfx
        · exact absurd (hbehind x hx) (Nat.not_lt.2 hle)

namespace WeekdaySet

def IsLetter (c : Char) : Prop := c.toUpper ∈ "MTWRFSU".toList

instance (c : Char) : Decidable (IsLetter c) := inferInstanceAs (Decidable (_ ∈ _))

theorem ofLetter?_eq_none_iff {c : Char} : Weekday.ofLetter? c = none ↔ ¬ IsLetter c := by
  simp [Weekday.ofLetter?, Weekday.all, Weekday.letter, IsLetter, @eq_comm _ _ c.toUpper]

theorem readLetters_eq_error_iff {cs : List Char} {c : Char} :
    readLetters cs = .error c ↔
      ∃ before after, cs = before ++ c :: after ∧ (∀ b ∈ before, IsLetter b) ∧ ¬ IsLetter c := by
  induction cs with
  | nil => simp [readLetters]
  | cons a cs ih =>
    rw [readLetters]
    cases ha : Weekday.ofLetter? a with
    | none =>
      have hnot := ofLetter?_eq_none_iff.1 ha
      constructor
      · rintro ⟨⟩
        exact ⟨[], cs, rfl, by simp, hnot⟩
      · rintro ⟨before, after, hsplit, hbefore, -⟩
        cases before with
        | nil =>
          obtain ⟨rfl, -⟩ := List.cons.inj hsplit
          rfl
        | cons b before =>
          obtain ⟨rfl, -⟩ := List.cons.inj hsplit
          exact absurd (hbefore a List.mem_cons_self) hnot
    | some d =>
      have hletter : IsLetter a := Decidable.not_not.1 fun hnot => by
        simp [ofLetter?_eq_none_iff.2 hnot] at ha
      rw [← failure?_eq_some_iff, failure?_map, failure?_eq_some_iff, ih]
      constructor
      · rintro ⟨before, after, rfl, hbefore, hnot⟩
        exact ⟨a :: before, after, rfl, List.forall_mem_cons.2 ⟨hletter, hbefore⟩, hnot⟩
      · rintro ⟨before, after, hsplit, hbefore, hnot⟩
        cases before with
        | nil =>
          obtain ⟨rfl, -⟩ := List.cons.inj hsplit
          exact absurd hletter hnot
        | cons b before =>
          obtain ⟨rfl, rfl⟩ := List.cons.inj hsplit
          exact ⟨before, after, rfl, (List.forall_mem_cons.1 hbefore).2, hnot⟩

end WeekdaySet

namespace Outline

inductive Kind where
  | name | property | value | path
  | date | instant | dayBound | weekdays | count
  deriving DecidableEq, Repr

def Kind.failure? : Kind → String → Option ParseError
  | date, text => Daybook.failure? (Command.readDate text)
  | instant, text => Daybook.failure? (Command.readInstant text)
  | dayBound, text => Daybook.failure? (Command.readDayBound text)
  | weekdays, text => Daybook.failure? (Command.readWeekdays text)
  | count, text => Daybook.failure? (Command.readCount text)
  | _, _ => none

def Kind.isLiteral : Kind → Bool
  | date | instant | dayBound | weekdays | count => true
  | _ => false

theorem Kind.failure?_of_not_literal {k : Kind} (h : k.isLiteral = false) (text : String) :
    k.failure? text = none := by
  cases k with
  | name | property | value | path => rfl
  | date | instant | dayBound | weekdays | count => cases h

structure Clause where
  span : Span
  kind : Kind
  deriving DecidableEq, Repr

def Clause.failure? (text : Span → String) (c : Clause) : Option ParseError :=
  c.kind.failure? (text c.span)

def repeatsClauses (bound : Kind) : Option Repeats → List Clause
  | none => []
  | some ⟨w, .count n⟩ => [⟨w, .weekdays⟩, ⟨n, .count⟩]
  | some ⟨w, .bound t⟩ => [⟨w, .weekdays⟩, ⟨t, bound⟩]

def clauses : Outline → List Clause
  | createTimed name start stop repeats =>
    ⟨name, .name⟩ :: ⟨start, .instant⟩ :: ⟨stop, .instant⟩ :: repeatsClauses .instant repeats
  | createAllDay name date repeats =>
    ⟨name, .name⟩ :: ⟨date, .date⟩ :: repeatsClauses .dayBound repeats
  | editSingle property name start stop value =>
    [⟨property, .property⟩, ⟨name, .name⟩, ⟨start, .instant⟩, ⟨stop, .instant⟩, ⟨value, .value⟩]
  | editMany property name (some start) value =>
    [⟨property, .property⟩, ⟨name, .name⟩, ⟨start, .instant⟩, ⟨value, .value⟩]
  | editMany property name none value =>
    [⟨property, .property⟩, ⟨name, .name⟩, ⟨value, .value⟩]
  | printOn date => [⟨date, .date⟩]
  | printRange start stop => [⟨start, .instant⟩, ⟨stop, .instant⟩]
  | exportTo _ path => [⟨path, .path⟩]
  | showStatus instant => [⟨instant, .instant⟩]

variable {b : List Token} {verb : Verb} {o : Outline} {text other : Span → String}

theorem spans_repeatsParts (bound : Kind) (r : Option Repeats) :
    (repeatsClauses bound r).map Clause.span = spans (repeatsParts r) := by
  rcases r with - | ⟨w, n | t⟩ <;> rfl

theorem map_span_clauses (o : Outline) : o.clauses.map Clause.span = spans o.parts := by
  cases o with
  | createTimed name start stop r | createAllDay name date r =>
    simp [clauses, parts, spans, spans_repeatsParts]
  | editMany property name start value => cases start <;> rfl
  | _ => rfl

/-- The clauses that were read off tokens stand in the order of the tokens. -/
theorem pairwise_clauses (h : read verb b = .ok o) :
    o.clauses.Pairwise fun c d => c.span.start < d.span.start := by
  obtain ⟨j, hlaid, -⟩ := laid_parts (read_eq_ok_iff.1 h)
  have hin : ∀ s ∈ spans o.parts, s.start < s.stop := fun s hs => (span_of_laid hlaid hs).2.1
  have hordered := (pairwise_of_laid hlaid).imp_of_mem fun {s t} hs _ hle =>
    Nat.lt_of_lt_of_le (hin s hs) hle
  rw [← map_span_clauses, List.pairwise_map] at hordered
  exact hordered

end Outline

namespace Command
open Outline (Clause Kind)
variable {b : List Token} {verb : Verb} {o : Outline} {text other : Span → String}

def FailsAs (text : Span → String) {α : Type} (r : Except ParseError α) (cs : List Clause) : Prop :=
  failure? r = cs.findSome? (Clause.failure? text)

namespace FailsAs
variable {α β : Type} {r : Except ParseError α} {c : Clause} {cs : List Clause}

theorem nothing (a : α) : FailsAs text (.ok a) [] := rfl

theorem free (hc : c.failure? text = none) (h : FailsAs text r cs) : FailsAs text r (c :: cs) := by
  rw [FailsAs, List.findSome?_cons, hc]
  exact h

theorem literal {f : α → Except ParseError β} (hc : c.failure? text = failure? r)
    (h : ∀ a, FailsAs text (f a) cs) : FailsAs text (r >>= f) (c :: cs) := by
  rw [FailsAs, List.findSome?_cons, hc]
  cases r with
  | error e => rfl
  | ok a => exact h a

theorem map (h : FailsAs text r cs) (f : α → β) : FailsAs text (r.map f) cs :=
  (failure?_map f).trans h

end FailsAs

theorem failsAs_readRule? (text : Span → String) (kind : Kind)
    {bound : String → Except ParseError Instant}
    (hkind : ∀ s, kind.failure? s = failure? (bound s)) (r : Option Repeats) :
    FailsAs text (readRule? text bound r) (Outline.repeatsClauses kind r) := by
  -- Only the bound is read differently for whole days; the weekdays come first either way.
  rcases r with - | ⟨w, n | t⟩
  · exact .nothing none
  · exact .map (.literal rfl fun _ => .literal rfl fun _ => .nothing _) some
  · have hbound : Clause.failure? text ⟨t, kind⟩ = failure? (bound (text t)) := hkind (text t)
    exact .map (.literal rfl fun _ => .literal hbound fun _ => .nothing _) some

/-- The literals are read from left to right, and nothing else can fail. -/
theorem failsAs_ofOutline (text : Span → String) (flag : Bool) (o : Outline) :
    FailsAs text (ofOutline text flag o) o.clauses := by
  cases o with
  | createTimed name start stop r =>
    have hrule := failsAs_readRule? text .instant (fun _ => rfl) r
    exact .free rfl (.literal rfl fun _ => .literal rfl fun _ => hrule.map _)
  | createAllDay name date r =>
    have hrule := failsAs_readRule? text .dayBound (fun _ => rfl) r
    exact .free rfl (.literal rfl fun _ => hrule.map _)
  | editSingle property name start stop value =>
    exact .free rfl (.free rfl (.literal rfl fun _ => .literal rfl fun _ => .free rfl (.nothing _)))
  | editMany property name start value =>
    cases start with
    | some start => exact .free rfl (.free rfl (.literal rfl fun _ => .free rfl (.nothing _)))
    | none => exact .free rfl (.free rfl (.free rfl (.nothing _)))
  | printOn date => exact .literal rfl fun _ => .nothing _
  | printRange start stop => exact .literal rfl fun _ => .literal rfl fun _ => .nothing _
  | exportTo dialect path => exact .free rfl (.nothing _)
  | showStatus instant => exact .literal rfl fun _ => .nothing _

theorem readWeekdays_eq_error_iff {letters : String} {e : ParseError} :
    readWeekdays letters = .error e ↔
      ∃ a, WeekdaySet.readLetters letters.toList = .error a ∧ e = .weekday a := by
  rw [readWeekdays, WeekdaySet.read]
  cases WeekdaySet.readLetters letters.toList with
  | error a => simp [Except.map, mapError_error, eq_comm]
  | ok ds => simp [Except.map, mapError_ok]

structure FailsFirst (text : Span → String) (o : Outline) (c : Clause) (e : ParseError) : Prop where
  mem : c ∈ o.clauses
  isLiteral : c.kind.isLiteral = true
  fails : c.failure? text = some e
  first : ∀ d ∈ o.clauses, d.failure? text ≠ none → c.span.start ≤ d.span.start

theorem FailsFirst.congr {c : Clause} {e : ParseError} (h : FailsFirst text o c e)
    (hsame : ∀ c ∈ o.clauses, c.kind.isLiteral = true → other c.span = text c.span) :
    FailsFirst other o c e := by
  have hfailure : ∀ d ∈ o.clauses, d.failure? other = d.failure? text := by
    intro d hd
    rw [Clause.failure?, Clause.failure?]
    cases hliteral : d.kind.isLiteral with
    | true => rw [hsame d hd hliteral]
    | false => rw [Kind.failure?_of_not_literal hliteral, Kind.failure?_of_not_literal hliteral]
  refine ⟨h.mem, h.isLiteral, (hfailure c h.mem).trans h.fails, fun d hd hfails => ?_⟩
  exact h.first d hd (hfailure d hd ▸ hfails)

theorem ofOutline_eq_ok_iff {flag : Bool} :
    (∃ c, ofOutline text flag o = .ok c) ↔
      ∀ c ∈ o.clauses, c.kind.isLiteral = true → c.failure? text = none := by
  rw [← failure?_eq_none_iff, failsAs_ofOutline, List.findSome?_eq_none_iff]
  refine forall₂_congr fun c hc => ⟨fun h _ => h, fun h => ?_⟩
  cases hliteral : c.kind.isLiteral with
  | true => exact h hliteral
  | false => exact Kind.failure?_of_not_literal hliteral _

theorem ofOutline_eq_error_iff (h : Outline.read verb b = .ok o) {flag : Bool} {e : ParseError} :
    ofOutline text flag o = .error e ↔ ∃ c, FailsFirst text o c e := by
  rw [← failure?_eq_some_iff, failsAs_ofOutline,
    findSome?_eq_some_iff_of_lt (Outline.pairwise_clauses h)]
  constructor
  · rintro ⟨c, hc, hfails, hfirst⟩
    refine ⟨c, hc, ?_, hfails, hfirst⟩
    cases hliteral : c.kind.isLiteral with
    | true => rfl
    | false =>
      rw [Clause.failure?, Kind.failure?_of_not_literal hliteral] at hfails
      cases hfails
  · rintro ⟨c, hc, -, hfails, hfirst⟩
    exact ⟨c, hc, hfails, hfirst⟩

/-- What was read off the tokens after a verb becomes a command, whatever the texts of the tokens
are, exactly if every literal is a value as its place asks. Else the error is that of the leftmost
literal that is none. Other clauses play no part in that, and of weekday letters the first that is
none is named. -/
theorem ofOutline_leftmost (h : Outline.read verb b = .ok o) (src : Source) (flag : Bool) :
    o.clauses.map Clause.span = Outline.spans o.parts ∧
      (o.clauses.Pairwise fun c d => c.span.start < d.span.start) ∧
      ((∃ c, ofOutline src.slice flag o = .ok c) ↔
        ∀ c ∈ o.clauses, c.kind.isLiteral = true → c.failure? src.slice = none) ∧
      (∀ e, ofOutline src.slice flag o = .error e ↔ ∃ c, FailsFirst src.slice o c e) ∧
      (∀ other : Source,
        (∀ c ∈ o.clauses, c.kind.isLiteral = true → other.slice c.span = src.slice c.span) →
        ∀ e, ofOutline other.slice flag o = .error e ↔ ofOutline src.slice flag o = .error e) ∧
      ∀ c ∈ o.clauses, c.kind = .weekdays → ∀ e, c.failure? src.slice = some e ↔
        ∃ before a after, (src.slice c.span).toList = before ++ a :: after ∧
          (∀ x ∈ before, WeekdaySet.IsLetter x) ∧ ¬ WeekdaySet.IsLetter a ∧ e = .weekday a := by
  refine ⟨Outline.map_span_clauses o, Outline.pairwise_clauses h, ofOutline_eq_ok_iff,
    fun e => ofOutline_eq_error_iff h, fun other hsame e => ?_, fun c _ hkind e => ?_⟩
  · rw [ofOutline_eq_error_iff h, ofOutline_eq_error_iff h]
    exact exists_congr fun c =>
      ⟨fun hc => hc.congr fun d hd hliteral => (hsame d hd hliteral).symm, fun hc => hc.congr hsame⟩
  · rw [Clause.failure?, hkind, Kind.failure?, failure?_eq_some_iff, readWeekdays_eq_error_iff]
    simp only [WeekdaySet.readLetters_eq_error_iff]
    constructor
    · rintro ⟨a, ⟨before, after, hsplit, hbefore, ha⟩, he⟩
      exact ⟨before, a, after, hsplit, hbefore, ha, he⟩
    · rintro ⟨before, a, after, hsplit, hbefore, ha, he⟩
      exact ⟨a, ⟨before, after, hsplit, hbefore, ha⟩, he⟩

def mixedUp : String := "X from 2025-3-3T9:00 to 2025-3-3T10:00 repeats MtX until never"

def mixedUpOutline : Outline :=
  .createTimed ⟨0, 1⟩ ⟨2, 3⟩ ⟨4, 5⟩ (some ⟨⟨6, 7⟩, .bound ⟨8, 9⟩⟩)

def mixedUpSource : Source := ⟨mixedUp.toList, (lex mixedUp).map Lexeme.span⟩

/-- Of the two bad literals the weekdays stand first. -/
theorem ofOutline_leftmost_mixedUp :
    Outline.read .createEvent ((lex mixedUp).map Lexeme.token) = .ok mixedUpOutline ∧
      Clause.failure? mixedUpSource.slice ⟨⟨8, 9⟩, .instant⟩ = some (.instant "never") ∧
      ofOutline mixedUpSource.slice true mixedUpOutline = .error (.weekday 'X') := by
  have hread : Outline.read .createEvent ((lex mixedUp).map Lexeme.token) = .ok mixedUpOutline :=
    rfl
  obtain ⟨-, -, -, herror, -⟩ := ofOutline_leftmost hread mixedUpSource true
  have hfirst : FailsFirst mixedUpSource.slice mixedUpOutline ⟨⟨6, 7⟩, .weekdays⟩ (.weekday 'X') :=
    ⟨by decide, rfl, by decide +kernel, by decide +kernel⟩
  exact ⟨hread, by decide +kernel, (herror _).2 ⟨_, hfirst⟩⟩

end Command
end Daybook
