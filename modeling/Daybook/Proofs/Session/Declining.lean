import Daybook.Proofs.Command.Appended
import Daybook.Proofs.Session.Lines

/-!
Declining by the settings and by the flag. Main statement: a session whose settings decline answers
lines as one whose settings only warn does, if there each create command has the flag.
-/
namespace Daybook

/-- With the flag, a command declines under any policy as it would under a declining one. -/
theorem Command.reply_declining (c : Command) (policy : Policy) (here : String) (store : Store) :
    c.declining.reply policy here store = c.reply .reject here store := by
  have hflag : Reply.effective policy true = .reject := rfl
  have hpolicy : ∀ declines, Reply.effective .reject declines = .reject := fun _ => ite_self _
  cases c with
  | createTimed | createAllDay => simp only [declining, reply, hflag, hpolicy]
  | _ => rfl

namespace Session
variable {s : Session} {policy : Policy}

def under (s : Session) (policy : Policy) : Session := { s with policy := policy }

/-- The policy shows in the reply to a command only. -/
theorem unnoticed_under (policy : Policy) : Unnoticed (under · policy) :=
  ⟨fun _ => rfl, fun _ => rfl, fun _ _ => rfl, fun _ _ => rfl, fun _ _ => rfl⟩

/-- Step: a line with the flag does what the line without it does where overlaps are declined. -/
theorem execute_flaggedLine (hs : s.policy = .reject) (policy : Policy) (line : String) :
    (s.under policy).execute (Command.flaggedLine line) =
      ((s.execute line).1.under policy, (s.execute line).2) := by
  rw [execute, execute, Command.parse_flaggedLine]
  cases Command.parse line with
  | error cause => rfl
  | ok c =>
    have hreply : (s.under policy).replyTo c.declining = s.replyTo c := by
      rw [replyTo, replyTo, hs]
      exact c.reply_declining policy s.files.hereName s.store
    change (s.under policy).run c.declining = _
    rw [run, hreply]
    exact (unnoticed_under policy).deliver s (s.replyTo c)

structure Turn where
  result : Except Error Outcome
  store : Store
  output : Bytes
  files : Files

def turns : Session → List String → List Turn
  | _, [] => []
  | s, line :: lines =>
    let t := (s.execute line).1
    ⟨(s.execute line).2, t.store, t.sink.taken, t.files⟩ :: turns t lines

/-- Run: in step, with the policy on one side and the flag on the other. -/
theorem turns_flaggedLine (hs : s.policy = .reject) (policy : Policy) (lines : List String) :
    turns (s.under policy) (lines.map Command.flaggedLine) = turns s lines := by
  induction lines generalizing s with
  | nil => rfl
  | cons line lines ih =>
    have hstays : (s.execute line).1.policy = .reject := (policy_execute s line).trans hs
    rw [List.map_cons, turns, turns, execute_flaggedLine hs]
    exact congrArg _ (ih hstays)

/-- Settings that decline come to the same, line by line, as settings that only warn, if there the
flag is put behind every create command: the same results and errors, calendars, output and files. -/
theorem turns_declining_settings (settings : Settings) (sink : Sink) (files : Files)
    (lines : List String) :
    turns (start ({ settings with autoDecline := true } : Settings).policy sink files) lines =
      turns (start ({ settings with autoDecline := false } : Settings).policy sink files)
        (lines.map Command.flaggedLine) :=
  (turns_flaggedLine (s := start .reject sink files) rfl .warn lines).symm

end Session
end Daybook
