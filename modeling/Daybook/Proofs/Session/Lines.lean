import Daybook.Program.Settings
import Daybook.Proofs.Command.Phrases
import Daybook.Proofs.Event.Presentable
import Daybook.Proofs.Event.Settings
import Daybook.Proofs.Session.Recurring
import Daybook.Proofs.Store.Kept

/-!
Sessions that are given lines. Main statements: every event that lines lead to can be written down
again, and no line asks for an event without a name; and where overlaps are declined by the
settings, the events lie one behind the other, whatever becomes of the output on the way.
-/
namespace Daybook

theorem Event.forall_mem_occurrences {P : Event → Prop} {template : Event} {rule : Option Rule}
    (h : P template)
    (hlater : ∀ {weekdays k e}, Rule.OccursAfter template weekdays k e → P e) :
    ∀ e ∈ template.occurrences rule, P e := by
  intro e he
  cases rule with
  | none =>
    rw [List.mem_singleton.1 he]
    exact h
  | some rule =>
    obtain ⟨k, hoccurs⟩ := Rule.exists_of_mem_expand he
    exact hlater hoccurs

theorem Patch.eq_of_read?_name {property value written : String}
    (h : read? property value = some (.name written)) : written = value := by
  simpa [settings] using (read?_eq_some_iff.1 h).1

namespace Command
open Store (Operation)
variable {c : Command} {op : Operation}

def Keeps (P : Event → Prop) (c : Command) : Prop :=
  ∀ policy, ∀ op ∈ c.operations policy, op.Keeps P

theorem Phrased.presentable (h : c.Phrased) {template : Event} {rule : Option Rule}
    {declines : Bool} (htemplate : c.template? = some (.ok template, rule, declines)) :
    template.Presentable := by
  obtain ⟨name, start, stop, rfl, hmade⟩ | ⟨name, date, rfl, hmade⟩ := cases_of_template htemplate
  · exact Event.presentable_of_timed hmade h.1 h.2.1 h.2.2
  · exact Event.presentable_of_onDay hmade h

theorem Phrased.keeps_of_edit (h : c.Phrased) (hedit : c.edit? = some op) :
    op.Keeps Event.Presentable := by
  have hpatch : ∀ {property value : String} {p : Patch}, Phrase value.toList →
      Patch.read? property value = some p → ∀ e : Event, e.Presentable → (e.apply p).Presentable :=
    fun hvalue hread e he => he.apply fun written hp =>
      Patch.eq_of_read?_name (hp ▸ hread) ▸ hvalue
  cases c with
  | editSingle | editFrom | editNamed =>
    obtain ⟨p, hread, rfl⟩ := Option.map_eq_some_iff.1 hedit
    exact hpatch h hread
  | _ => cases hedit

theorem Phrased.keeps (h : c.Phrased) : c.Keeps Event.Presentable := by
  intro policy op hop
  obtain ⟨template, rule, declines, htemplate, e, he, rfl⟩ | hedit := cases_of_mem_operations hop
  · have hpresentable := h.presentable htemplate
    exact Event.forall_mem_occurrences hpresentable hpresentable.occurrence e he
  · exact h.keeps_of_edit hedit

theorem Phrased.template_ne_emptyName (h : c.Phrased) {rule : Option Rule} {declines : Bool} :
    c.template? ≠ some (.error .emptyName, rule, declines) := by
  have htimed : ∀ {name : String} {start stop : Instant}, Phrase name.toList →
      Event.timed name start stop ≠ .error .emptyName := by
    intro name start stop hname hmade
    have hne : name ≠ "" := fun hempty => hname.ne_nil (by simp [hempty])
    rw [Event.timed, if_neg hne] at hmade
    split at hmade <;> cases hmade
  intro htemplate
  obtain ⟨name, start, stop, rfl, hmade⟩ | ⟨name, date, rfl, hmade⟩ := cases_of_template htemplate
  · exact htimed h.1 hmade
  · simp only [Event.onDay] at hmade
    split at hmade
    · cases hmade
    · rw [← failure?_eq_some_iff, failure?_map, failure?_eq_some_iff] at hmade
      exact htimed h hmade

/-- Under a declining policy every insertion of a command declines. -/
theorem declines_of_mem_operations (hop : op ∈ c.operations .reject) : op.Declines := by
  obtain ⟨template, rule, declines, -, e, -, rfl⟩ | hedit := cases_of_mem_operations hop
  · exact ite_self _
  · cases c with
    | editSingle | editFrom | editNamed =>
      obtain ⟨p, -, rfl⟩ := Option.map_eq_some_iff.1 hedit
      trivial
    | _ => cases hedit

end Command

namespace Session
variable {s : Session} {P : Event → Prop} {line : String} {lines : List String}

def executeAll (s : Session) (lines : List String) : Session :=
  lines.foldl (fun s line => (s.execute line).1) s

theorem policy_perform (s : Session) (steps : List Step) :
    (s.perform steps).1.policy = s.policy := by
  induction steps generalizing s with
  | nil => rfl
  | cons step steps ih =>
    rw [perform_cons]
    obtain ⟨t, ht, -, hpolicy⟩ | ⟨t, e, ht, hfails⟩ := s.take_cases step
    · rw [ht]
      exact (ih t).trans hpolicy
    · rw [ht]
      cases hfails with
      | save => rfl
      | print hwrite => rw [eq_of_write hwrite]

theorem policy_run (s : Session) (c : Command) : (s.run c).1.policy = s.policy := by
  rw [run_fst, policy_perform]

theorem policy_execute (s : Session) (line : String) : (s.execute line).1.policy = s.policy := by
  rw [execute]
  cases Command.parse line with
  | error e => rfl
  | ok c => exact policy_run s c

/-- Step: what a command keeps holds of every event after it. -/
theorem forall_mem_run {c : Command} (hc : c.Keeps P) (h : ∀ e ∈ s.store.events, P e) :
    ∀ e ∈ (s.run c).1.store.events, P e := by
  obtain ⟨ops, hfirst, hrun⟩ := s.exists_run_of_run c
  rw [hrun]
  exact Store.forall_mem_run (fun op hop => hc s.policy op (hfirst.subset hop)) h

theorem forall_mem_execute (hline : ∀ c, Command.parse line = .ok c → c.Keeps P)
    (h : ∀ e ∈ s.store.events, P e) : ∀ e ∈ (s.execute line).1.store.events, P e := by
  rw [execute]
  cases hc : Command.parse line with
  | error cause => exact h
  | ok c => exact forall_mem_run (hline c hc) h

/-- Run: what the commands of all lines keep holds of every event at the end. -/
theorem forall_mem_executeAll
    (hlines : ∀ line ∈ lines, ∀ c, Command.parse line = .ok c → c.Keeps P)
    (h : ∀ e ∈ s.store.events, P e) : ∀ e ∈ (s.executeAll lines).store.events, P e := by
  induction lines generalizing s with
  | nil => exact h
  | cons line lines ih =>
    obtain ⟨hline, hlines⟩ := List.forall_mem_cons.1 hlines
    exact ih hlines (forall_mem_execute hline h)

theorem result_of_run_event {c : Command} {e : EventError}
    (h : (s.run c).2 = .error (.event e)) : (s.replyTo c).result = .error (.event e) := by
  rw [run, deliver] at h
  cases hperform : s.perform (s.replyTo c).steps with
  | mk t result =>
    rw [hperform] at h
    cases result with
    | ok _ => exact h
    | error e' =>
      obtain rfl : e' = .event e := Except.error.inj h
      obtain ⟨_, _, _, _, -, -, hfails⟩ := exists_fails hperform
      cases hfails

/-- A command fails for its event only if it has no valid template. -/
theorem template_of_run_event {c : Command} {e : EventError}
    (h : (s.run c).2 = .error (.event e)) :
    ∃ rule declines, c.template? = some (.error e, rule, declines) := by
  have hresult := result_of_run_event h
  cases c.kind with
  | @invalid e' rule declines htemplate =>
    rw [replyTo, Command.reply_of_no_template htemplate] at hresult
    cases hresult
    exact ⟨rule, declines, htemplate⟩
  | @creates template rule declines htemplate =>
    rw [replyTo, Command.reply_of_template htemplate] at hresult
    obtain haccepted | ⟨hpolicy, p, o, rest, hp, hsplit⟩ :=
      Reply.create_cases (Reply.effective s.policy declines) s.store template rule
    · rw [Reply.create_of_accepted haccepted] at hresult
      cases hresult
    · obtain ⟨f, fs, -, hcreate⟩ := Reply.create_of_declined hp hsplit
      rw [hpolicy, hcreate] at hresult
      cases hresult
  | edits htemplate hlooks =>
    obtain ⟨text, count, hreply⟩ :=
      @Command.reply_of_edits c s.policy s.store s.files.hereName htemplate hlooks
    rw [replyTo, hreply] at hresult
    cases hresult
  | looks hlooks =>
    obtain ⟨⟨outcome, hok⟩, -⟩ :=
      @Command.reply_of_looks c s.policy s.store s.files.hereName hlooks
    rw [replyTo, hok] at hresult
    cases hresult

theorem execute_ne_emptyName (s : Session) (line : String) :
    (s.execute line).2 ≠ .error (.event .emptyName) := by
  intro h
  rw [execute] at h
  cases hc : Command.parse line with
  | error cause =>
    rw [hc] at h
    cases h
  | ok c =>
    rw [hc] at h
    obtain ⟨rule, declines, htemplate⟩ := template_of_run_event h
    exact (Command.phrased_of_parse hc).template_ne_emptyName htemplate

/-- Sessions that lines lead to from a fresh one. Between two lines the files may change, and the
output may take in other texts, so that one line fails for it and the next does not. -/
inductive Driven : Session → Prop
  | start (policy : Policy) (sink : Sink) (files : Files) : Driven (start policy sink files)
  | execute {s : Session} (line : String) : Driven s → Driven (s.execute line).1
  | outside {s : Session} (sink : Sink) (files : Files) :
      Driven s → Driven { s with sink := sink, files := files }

theorem Driven.executeAll (h : s.Driven) (lines : List String) : (s.executeAll lines).Driven := by
  induction lines generalizing s with
  | nil => exact h
  | cons line lines ih => exact ih (h.execute line)

theorem Driven.reachable (h : s.Driven) : s.Reachable := by
  induction h with
  | start policy sink files => exact .start policy sink files
  | execute line _ ih => exact ih.execute line
  | outside sink files _ ih => exact ih.outside sink files

/-- Run: what the command of every line keeps holds of every event, whatever failed on the way. -/
theorem Driven.forall_mem (h : s.Driven)
    (hkeeps : ∀ line c, Command.parse line = .ok c → c.Keeps P) : ∀ e ∈ s.store.events, P e := by
  induction h with
  | start => simp [Session.start, Store.empty]
  | execute line _ ih => exact forall_mem_execute (hkeeps line) ih
  | outside _ _ _ ih => exact ih

/-- Whatever lines lead to a session, its events can be written down as they are, and none of the
lines fails for an event without a name. -/
theorem presentable_of_driven (h : s.Driven) :
    (∀ e ∈ s.store.events, e.start < e.stop ∧ e.Presentable) ∧
      ∀ (t : Session) (line : String), (t.execute line).2 ≠ .error (.event .emptyName) := by
  refine ⟨fun e he => ⟨e.start_lt_stop, ?_⟩, execute_ne_emptyName⟩
  exact h.forall_mem (fun _ _ hc => (Command.phrased_of_parse hc).keeps) e he

def walkLine : String := "create event Dog  walk on 2024-5-13 repeats MW for 2 times"

/-- The output is full at the first line, and exchanged for another before the rest. -/
def refilled (policy : Policy) : Session :=
  let full := ((start policy (Sink.limited 4) ⟨[], []⟩).execute walkLine).1
  { full with sink := Sink.unlimited }.executeAll
    ["create event Tea on 2024-5-15", "create event Trip on 2024-5-14"]

theorem driven_refilled (policy : Policy) : (refilled policy).Driven :=
  (((Driven.start policy (Sink.limited 4) ⟨[], []⟩).execute walkLine).outside
    Sink.unlimited _).executeAll _

theorem presentable_of_driven_refilled :
    ((start .warn (Sink.limited 4) ⟨[], []⟩).execute walkLine).2 = .error (.output .sinkFull) ∧
      (refilled .warn).store.events.map Event.name = ["Dog  walk", "Trip", "Dog  walk", "Tea"] ∧
      ∀ e ∈ (refilled .warn).store.events, e.start < e.stop ∧ e.Presentable :=
  ⟨by decide +kernel, by decide +kernel, (presentable_of_driven (driven_refilled .warn)).1⟩

/-- Run: under a declining policy nothing leads to an overlap. -/
theorem Reachable.apart (h : s.Reachable) (hpolicy : s.policy = .reject) : s.store.Apart := by
  induction h with
  | start => exact Store.apart_empty
  | @run s c _ ih =>
    rw [policy_run] at hpolicy
    obtain ⟨ops, hfirst, hrun⟩ := s.exists_run_of_run c
    rw [hpolicy] at hfirst
    rw [hrun]
    exact (ih hpolicy).run fun op hop => Command.declines_of_mem_operations (hfirst.subset hop)
  | outside _ _ _ ih => exact ih hpolicy

/-- Where the settings decline, neither lines nor commands lead to an overlap: the events lie one
behind the other, and no instant has two. -/
theorem apart_of_reachable (settings : Settings) (h : s.Reachable)
    (hpolicy : s.policy = ({ settings with autoDecline := true } : Settings).policy) :
    (s.store.events.Pairwise fun e f => ¬ e.Overlaps f) ∧
      (s.store.events.Pairwise fun e f => e.stop ≤ f.start) ∧
      (s.store.events.Pairwise fun e f => e.start < f.start) ∧
      ∀ t, s.store.events.countP (fun e => decide (e.Covers t)) ≤ 1 := by
  have hapart := h.apart hpolicy
  have hbehind := hapart.pairwise_stop_le h.sorted
  exact ⟨hapart, hbehind, hapart.pairwise_start_lt h.sorted, Store.countP_covers_le_one hbehind⟩

/-- The same lines, where the one that would overlap is declined. -/
theorem apart_of_reachable_refilled :
    (refilled .reject).Reachable ∧
      (refilled .reject).policy = ({ autoDecline := true } : Settings).policy ∧
      (refilled .reject).store.events.map Event.name = ["Dog  walk", "Trip", "Dog  walk"] ∧
      (refilled .reject).store.events.Pairwise fun e f => e.stop ≤ f.start := by
  have hs : (refilled .reject).Reachable := (driven_refilled .reject).reachable
  have hpolicy : (refilled .reject).policy = ({ autoDecline := true } : Settings).policy := by
    simp [refilled, executeAll, policy_execute, start, Settings.policy]
  exact ⟨hs, hpolicy, by decide +kernel, (apart_of_reachable {} hs hpolicy).2.1⟩

end Session
end Daybook
