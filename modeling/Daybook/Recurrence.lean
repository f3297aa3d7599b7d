import Daybook.Calendar.Moment
import Daybook.Event.Basic

/-! Weekly recurrence: rules, and the occurrences that a rule gives a template event. -/
namespace Daybook

abbrev Count := { n : Nat // 1 ≤ n ∧ n ≤ 4294967295 }

def Count.ofNat? (n : Nat) : Option Count :=
  if h : 1 ≤ n ∧ n ≤ 4294967295 then some ⟨n, h⟩ else none

inductive Ending where
  | count (n : Count)
  | before (bound : Moment)
  deriving DecidableEq, Repr

structure Rule where
  weekdays : WeekdaySet
  ending : Ending
  deriving DecidableEq, Repr

namespace Rule

/-- The template's occurrences on days of the set, from `offset` days after its start on, over
`days` days. Ends after `budget` occurrences, at the first start that is not admitted, and at the
first occurrence that leaves the calendar. -/
def walk (template : Event) (weekdays : WeekdaySet) (admits : Instant → Bool) :
    (days budget offset : Nat) → List Event
  | 0, _, _ => []
  | _ + 1, 0, _ => []
  | days + 1, budget + 1, offset =>
    if weekdays.contains (Date.weekdayOf (template.start.date.number + offset)) then
      match template.start.addDays? offset with
      | none => []
      | some start =>
        if admits start then
          match template.movedTo? start with
          | none => []
          | some e => e :: walk template weekdays admits days budget (offset + 1)
        else []
    else walk template weekdays admits days (budget + 1) (offset + 1)

@[specialize] def foldWalk (f : σ → Event → Except ε σ) (template : Event) (weekdays : WeekdaySet)
    (admits : Instant → Bool) : (days budget offset : Nat) → σ → Except ε σ
  | 0, _, _, s => .ok s
  | _ + 1, 0, _, s => .ok s
  | days + 1, budget + 1, offset, s =>
    if weekdays.contains (Date.weekdayOf (template.start.date.number + offset)) then
      match template.start.addDays? offset with
      | none => .ok s
      | some start =>
        if admits start then
          match template.movedTo? start with
          | none => .ok s
          | some e =>
            match f s e with
            | .error reason => .error reason
            | .ok s => foldWalk f template weekdays admits days budget (offset + 1) s
        else .ok s
    else foldWalk f template weekdays admits days (budget + 1) (offset + 1) s

def daysLeft (template : Event) : Nat :=
  (Date.last.number - template.start.date.number).toNat

/-- The starts that a rule admits, and how many occurrences it may give a template; none if it gives
no occurrence to any. -/
def limits? (template : Event) (rule : Rule) : Option ((Instant → Bool) × Nat) :=
  if rule.weekdays.isEmpty then none
  else match rule.ending with
    | .count n => some (fun _ => true, n.val)
    | .before bound =>
      bound.secondEarlier?.map fun last =>
        (fun start : Instant => decide ((start : Moment) ≤ last), daysLeft template)

def expand (template : Event) (rule : Rule) : List Event :=
  match limits? template rule with
  | none => []
  | some (admits, budget) => walk template rule.weekdays admits (daysLeft template) budget 0

@[specialize] def foldOccurrences (f : σ → Event → Except ε σ) (s : σ) (template : Event)
    (rule : Rule) : Except ε σ :=
  match limits? template rule with
  | none => .ok s
  | some (admits, budget) =>
    foldWalk f template rule.weekdays admits (daysLeft template) budget 0 s

theorem foldWalk_eq (f : σ → Event → Except ε σ) (template : Event) (weekdays : WeekdaySet)
    (admits : Instant → Bool) (days budget offset : Nat) (s : σ) :
    foldWalk f template weekdays admits days budget offset s =
      (walk template weekdays admits days budget offset).foldlM f s := by
  fun_induction walk template weekdays admits days budget offset generalizing s with
  | case1 => simp [foldWalk, pure, Except.pure]
  | case2 => simp [foldWalk, pure, Except.pure]
  | case3 days budget offset h h' => simp [foldWalk, h, h', pure, Except.pure]
  | case4 days budget offset h start h' ha h'' =>
    simp [foldWalk, h, h', ha, h'', pure, Except.pure]
  | case5 days budget offset h start h' ha e h'' ih =>
    simp only [foldWalk, h, h', ha, h'', if_true, List.foldlM_cons]
    cases f s e with
    | error reason => rfl
    | ok s => exact ih s
  | case6 days budget offset h start h' ha => simp [foldWalk, h, h', ha, pure, Except.pure]
  | case7 days budget offset h ih => simpa [foldWalk, h] using ih s

theorem foldOccurrences_eq (f : σ → Event → Except ε σ) (s : σ) (template : Event) (rule : Rule) :
    foldOccurrences f s template rule = (expand template rule).foldlM f s := by
  unfold foldOccurrences expand
  split
  · rfl
  · exact foldWalk_eq ..

end Rule
end Daybook
