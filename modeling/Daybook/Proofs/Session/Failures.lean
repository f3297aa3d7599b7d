import Daybook.Proofs.Session.Recurring

/-!
Commands that fail. Main statement: a failure leaves the calendar and the output as they were, but
for the occurrences in front of one that is declined, and for what an output without room took.
-/
namespace Daybook

namespace Command
variable {c : Command} {policy : Policy} {here path content : String} {store : Store}

theorem save_first {done rest : List Step}
    (h : (c.reply policy here store).steps = done ++ .save path content :: rest) : done = [] := by
  have hmem : .save path content ∈ (c.reply policy here store).steps := by simp [h]
  cases c.kind with
  | invalid htemplate =>
    rw [reply_of_no_template htemplate] at hmem
    cases hmem
  | creates htemplate =>
    rw [reply_of_template htemplate] at hmem
    exact absurd hmem (Reply.save_not_mem_create path content)
  | edits htemplate hlooks =>
    obtain ⟨line, count, hreply⟩ := @reply_of_edits c policy store here htemplate hlooks
    rw [hreply] at hmem
    simp [Step.say] at hmem
  | looks hlooks =>
    obtain ⟨-, hprint | ⟨path', content', line, hsteps⟩⟩ :=
      @reply_of_looks c policy store here hlooks
    · obtain ⟨text, htext⟩ := hprint _ hmem
      cases htext
    · rw [hsteps] at h
      cases done with
      | nil => rfl
      | cons step done =>
        have hlast : .save path content ∈ [Step.say line] := by
          rw [(List.cons.inj h).2]
          simp
        simp [Step.say] at hlast

end Command

namespace Session
variable {s t u : Session} {c : Command} {line : String} {e : Error}

/-- What the command of a line may have done to a session when it fails. -/
def Spares (s : Session) (line : String) (t : Session) : Error → Prop
  | .parse _ | .event _ | .exporting _ _ => t = s
  | .conflict _ =>
    t.sink = s.sink ∧ ∃ c template rule declines p, Command.parse line = .ok c ∧
      c.template? = some (.ok template, rule, declines) ∧ p <+: template.occurrences rule ∧
      (rule = none → p = []) ∧ t.store = s.store.addAll p ∧
      s.store.events.Sublist t.store.events
  | .output _ =>
    ∃ c done text rest u, Command.parse line = .ok c ∧
      (s.replyTo c).steps = done ++ .print text :: rest ∧ s.perform done = (u, .ok ()) ∧
      (u.sink.write text).2 = false

/-- Where a reply is no error in itself, a step of it fails. -/
theorem spares_of_result_ok {outcome : Outcome} (hc : Command.parse line = .ok c)
    (hresult : (s.replyTo c).result = .ok outcome) (h : s.run c = (t, .error e)) :
    s.Spares line t e := by
  rw [run, deliver] at h
  cases hperform : s.perform (s.replyTo c).steps with
  | mk v result =>
    rw [hperform] at h
    cases result with
    | ok _ =>
      rw [hresult] at h
      cases h
    | error e' =>
      cases h
      obtain ⟨done, step, rest, u, hsteps, hdone, hfails⟩ := exists_fails hperform
      cases hfails with
      | save hreplace =>
        obtain rfl := Command.save_first hsteps
        cases hdone
        rfl
      | print hwrite =>
        exact ⟨c, done, _, rest, u, hc, hsteps, hdone, congrArg Prod.snd hwrite⟩

theorem spares_of_run (hc : Command.parse line = .ok c) (h : s.run c = (t, .error e)) :
    s.Spares line t e := by
  cases c.kind with
  | invalid htemplate =>
    have hreply : s.replyTo c = _ := Command.reply_of_no_template htemplate
    rw [run, hreply] at h
    cases h
    rfl
  | @creates template rule declines htemplate =>
    obtain haccepted | ⟨hpolicy, p, o, rest, hp, hsplit⟩ :=
      Reply.create_cases (Reply.effective s.policy declines) s.store template rule
    · have hreply : s.replyTo c = _ :=
        (Command.reply_of_template htemplate).trans (Reply.create_of_accepted haccepted)
      exact spares_of_result_ok hc (congrArg Reply.result hreply) h
    · obtain ⟨f, fs, -, hrun⟩ := run_of_declined htemplate hpolicy hp hsplit
      rw [hrun] at h
      cases h
      refine ⟨rfl, c, template, rule, declines, p, hc, htemplate, hp.isPrefix, fun hnone => ?_,
        rfl, s.store.sublist_events_addAll p⟩
      -- a single event has nothing before it
      subst hnone
      have hlen := congrArg List.length hsplit
      simp only [Event.occurrences, List.length_append, List.length_cons, List.length_nil] at hlen
      exact List.length_eq_zero_iff.1 (by omega)
  | edits htemplate hlooks =>
    obtain ⟨line', count, hreply⟩ :=
      @Command.reply_of_edits c s.policy s.store s.files.hereName htemplate hlooks
    exact spares_of_result_ok hc (congrArg Reply.result hreply) h
  | looks hlooks =>
    obtain ⟨⟨outcome, hresult⟩, -⟩ :=
      @Command.reply_of_looks c s.policy s.store s.files.hereName hlooks
    exact spares_of_result_ok hc hresult h

/-- A command that looks leaves the calendar as it is, whether it succeeds or not. -/
theorem store_run_of_looks (h : c.looks = true) : (s.run c).1.store = s.store := by
  obtain ⟨taken, hfirst, hstore⟩ := s.exists_taken (s.replyTo c).steps
  rw [run_fst, hstore]
  exact Step.foldl_keepIn_of_quiet fun step hstep =>
    Command.quiet_of_looks h (hfirst.subset hstep) s.store

/-- Errors spare the session, and commands that look spare its calendar in any case. -/
theorem execute_spares (s : Session) (line : String) :
    (∀ t e, s.execute line = (t, .error e) → s.Spares line t e) ∧
      ∀ c, Command.parse line = .ok c → c.looks = true →
        (s.execute line).1.store = s.store := by
  constructor
  · intro t e h
    rw [execute] at h
    cases hc : Command.parse line with
    | error cause =>
      rw [hc] at h
      cases h
      rfl
    | ok c =>
      rw [hc] at h
      exact spares_of_run hc h
  · intro c hc hlooks
    rw [execute, hc]
    exact store_run_of_looks hlooks

def gymLine : String :=
  "create event Gym from 2024-05-06T08:00 to 2024-05-06T11:00 repeats MW for 3 times"

theorem execute_spares_gym :
    ∃ t, dentistSession.execute gymLine = (t, .error (.conflict "Dentist")) ∧
      t.store.events.map Event.name = ["Gym", "Dentist"] ∧
      dentistSession.Spares gymLine t (.conflict "Dentist") := by
  have hparse : Command.parse gymLine = .ok gymCommand := by decide +kernel
  have hresult : (dentistSession.run gymCommand).2 = .error (.conflict "Dentist") := by
    decide +kernel
  have hexecute : dentistSession.execute gymLine =
      ((dentistSession.run gymCommand).1, .error (.conflict "Dentist")) := by
    rw [execute, hparse]
    exact Prod.ext rfl hresult
  exact ⟨_, hexecute, by decide +kernel, (execute_spares _ _).1 _ _ hexecute⟩

end Session
end Daybook
