import Daybook.Proofs.Event.WellFormed
import Daybook.Proofs.Recurrence.Occurrences
import Daybook.Proofs.Session.Operations

/-!
Series of events created at once. Main statement: a create command with a rule brings in the first
of its occurrences, all of them where overlaps are only warned of, and else those in front of the
first that overlaps the calendar or an occurrence before it.
-/
namespace Daybook

theorem Command.duration_of_template {c : Command} {template : Event} {rule : Option Rule}
    {declines : Bool} (hc : c.template? = some (.ok template, rule, declines))
    (hday : template.allDay = true) : template.duration = 86400 := by
  obtain ⟨name, start, stop, -, hmade⟩ | ⟨name, date, -, hmade⟩ := cases_of_template hc
  · rw [(Event.of_timed hmade).2.2.2.2] at hday
    cases hday
  · exact Event.duration_of_onDay hmade

namespace Session
variable {s : Session} {c : Command} {template : Event} {rule : Option Rule} {declines : Bool}

theorem run_of_accepted (hroom : s.sink.room = none)
    (hc : c.template? = some (.ok template, rule, declines))
    (h : Reply.effective s.policy declines = .warn ∨ s.store.Admits (template.occurrences rule)) :
    (s.run c).1.store = s.store.addAll (template.occurrences rule) ∧
      (s.run c).2 = .ok (.created (template.occurrences rule).length
        (s.store.namesMet (template.occurrences rule))) := by
  have hcreate : s.replyTo c =
      Reply.create (Reply.effective s.policy declines) s.store template rule :=
    Command.reply_of_template hc
  have hsave : ∀ path content, .save path content ∉ (s.replyTo c).steps :=
    hcreate ▸ Reply.save_not_mem_create
  rw [run, deliver, perform_of_unlimited hroom hsave]
  refine ⟨?_, ?_⟩
  · change (s.replyTo c).steps.foldl Step.keepIn s.store = _
    rw [hcreate, Reply.keepIn_create_of_accepted h]
  · change (s.replyTo c).result = _
    rw [hcreate, Reply.create_of_accepted h]

structure BringsIn (s : Session) (es : List Event) (after : Session × Except Error Outcome) :
    Prop where
  events : after.1.store.events.Perm (s.store.events ++ es)
  growth : after.1.store.events.length = s.store.events.length + es.length
  result : ∃ conflicts, after.2 = .ok (.created es.length conflicts)

theorem bringsIn_of_addAll {es : List Event} {after : Session × Except Error Outcome}
    {conflicts : List String} (hstore : after.1.store = s.store.addAll es)
    (hresult : after.2 = .ok (.created es.length conflicts)) : s.BringsIn es after where
  events := hstore ▸ s.store.perm_events_addAll es
  growth := by
    have hlength := (s.store.perm_events_addAll es).length_eq
    rwa [← hstore, List.length_append] at hlength
  result := ⟨conflicts, hresult⟩

/-- A create command that succeeds has a valid template, and brings all of its occurrences in. -/
theorem bringsIn_of_created {made : Except EventError Event} {outcome : Outcome}
    (hc : c.template? = some (made, rule, declines)) (h : (s.run c).2 = .ok outcome) :
    ∃ template, made = .ok template ∧ s.BringsIn (template.occurrences rule) (s.run c) := by
  obtain ⟨hresult, hstore⟩ := deliver_of_ok h
  cases made with
  | error e =>
    rw [replyTo, Command.reply_of_no_template hc] at hresult
    cases hresult
  | ok template =>
    have hcreate : s.replyTo c =
        Reply.create (Reply.effective s.policy declines) s.store template rule :=
      Command.reply_of_template hc
    obtain haccepted | ⟨hpolicy, p, e, rest, hp, hsplit⟩ :=
      Reply.create_cases (Reply.effective s.policy declines) s.store template rule
    · rw [hcreate, Reply.create_of_accepted haccepted] at hresult
      have hall : (s.run c).1.store = s.store.addAll (template.occurrences rule) := by
        rw [run, hstore, hcreate, Reply.keepIn_create_of_accepted haccepted]
      exact ⟨template, rfl, bringsIn_of_addAll hall (h.trans hresult.symm)⟩
    · obtain ⟨f, fs, -, hdeclined⟩ := Reply.create_of_declined hp hsplit
      rw [hcreate, hpolicy, hdeclined] at hresult
      cases hresult

/-- Where an occurrence is declined, those before it stay and nothing is written. -/
theorem run_of_declined {p rest : List Event} {e : Event}
    (hc : c.template? = some (.ok template, rule, declines))
    (hpolicy : Reply.effective s.policy declines = .reject)
    (hp : s.store.LongestAdmitted (template.occurrences rule) p)
    (hsplit : template.occurrences rule = p ++ e :: rest) :
    ∃ f fs, (s.store.addAll p).overlapping e = f :: fs ∧
      s.run c = ({ s with store := s.store.addAll p }, .error (.conflict f.name)) := by
  obtain ⟨f, fs, hmeets, hcreate⟩ := Reply.create_of_declined hp hsplit
  refine ⟨f, fs, hmeets, ?_⟩
  have hreply : s.replyTo c = _ := (Command.reply_of_template hc).trans (hpolicy ▸ hcreate)
  rw [run, deliver, hreply]
  simp only [perform_adds]

structure Warned (s : Session) (os : List Event) (after : Session × Except Error Outcome) :
    Prop where
  store : after.1.store = s.store.addAll os
  result : after.2 = .ok (.created os.length (s.store.namesMet os))

/-- What comes of a series where overlaps are declined, if `p` are the occurrences that come in. -/
structure Declined (s : Session) (os p : List Event) (after : Session × Except Error Outcome) :
    Prop where
  longest : s.store.LongestAdmitted os p
  store : after.1.store = s.store.addAll p
  complete : p = os → after.2 = .ok (.created os.length [])
  conflict_iff : (∃ name, after.2 = .error (.conflict name)) ↔ p ≠ os
  named : ∀ e rest, os = p ++ e :: rest → ∃ f fs, (s.store.addAll p).overlapping e = f :: fs ∧
    after.2 = .error (.conflict f.name)
  silent : p ≠ os → after.1.sink = s.sink

theorem declined_of_admits {os : List Event} {after : Session × Except Error Outcome}
    (h : s.store.Admits os) (hstore : after.1.store = s.store.addAll os)
    (hresult : after.2 = .ok (.created os.length [])) : s.Declined os os after where
  longest := ⟨List.prefix_rfl, h, fun _ hq _ => hq.length_le⟩
  store := hstore
  complete _ := hresult
  conflict_iff := by simp [hresult]
  named e rest hsplit := by simp at hsplit
  silent hne := absurd rfl hne

/-- Under a declining policy the occurrences come in up to the first that overlaps. -/
theorem exists_declined (hroom : s.sink.room = none)
    (hc : c.template? = some (.ok template, rule, declines))
    (hpolicy : Reply.effective s.policy declines = .reject) :
    ∃ p, s.Declined (template.occurrences rule) p (s.run c) := by
  obtain haccepted | ⟨-, p, e, rest, hp, hsplit⟩ :=
    Reply.create_cases (Reply.effective s.policy declines) s.store template rule
  · have hall : s.store.Admits (template.occurrences rule) :=
      haccepted.resolve_left (by simp [hpolicy])
    obtain ⟨hstore, hresult⟩ := run_of_accepted hroom hc haccepted
    rw [Store.namesMet_of_admits hall] at hresult
    exact ⟨_, declined_of_admits hall hstore hresult⟩
  · obtain ⟨f, fs, hmeets, hrun⟩ := run_of_declined hc hpolicy hp hsplit
    have hne : p ≠ template.occurrences rule := by simp [hsplit]
    rw [hrun]
    refine ⟨p, hp, rfl, fun h => absurd h hne, by simp [hne], fun e' rest' hsplit' => ?_,
      fun _ => rfl⟩
    rw [hsplit] at hsplit'
    obtain ⟨rfl, -⟩ := List.cons.inj (List.append_cancel_left hsplit')
    exact ⟨f, fs, hmeets, rfl⟩

/-- A create command with a rule, run where the output has no limit. -/
theorem run_recurring {rule : Rule} (hs : s.Reachable) (hroom : s.sink.room = none)
    (hc : c.template? = some (.ok template, some rule, declines)) :
    (Reply.effective s.policy declines = .warn →
        s.Warned (rule.expand template) (s.run c)) ∧
      (Reply.effective s.policy declines = .reject →
        ∃ p, s.Declined (rule.expand template) p (s.run c)) ∧
      (Reply.effective s.policy declines = .reject → template.duration ≤ 86400 →
        (∀ e ∈ rule.expand template, ∀ f ∈ s.store.events, ¬ f.Overlaps e) →
        (s.run c).1.store = s.store.addAll (rule.expand template) ∧
          (s.run c).2 = .ok (.created (rule.expand template).length [])) ∧
      (template.allDay = true → template.duration ≤ 86400) ∧
      ∀ es, (s.store.addAll es).events = (s.store.events ++ es).mergeSort Event.notAfter := by
  refine ⟨fun hwarn => ?_, exists_declined hroom hc, fun _ hduration hold => ?_, fun hday => ?_,
    hs.sorted.events_addAll⟩
  · obtain ⟨hstore, hresult⟩ := run_of_accepted hroom hc (.inl hwarn)
    exact ⟨hstore, hresult⟩
  · have hall : s.store.Admits (rule.expand template) :=
      ⟨hold, Rule.pairwise_not_overlaps_expand template rule hduration⟩
    obtain ⟨hstore, hresult⟩ := run_of_accepted hroom hc (.inr hall)
    rw [← Store.namesMet_of_admits hall]
    exact ⟨hstore, hresult⟩
  · exact Int.le_of_eq (Command.duration_of_template hc hday)

def dentistSession : Session :=
  ((start .reject Sink.unlimited ⟨[], []⟩).run (.createTimed "Dentist"
    ⟨63850755600, by decide, by decide⟩ ⟨63850759200, by decide, by decide⟩ none false)).1

def gymTemplate : Event :=
  ⟨"Gym", ⟨63850579200, by decide, by decide⟩, ⟨63850590000, by decide, by decide⟩, false, "", "",
    true, by decide⟩

def gymRule : Rule := ⟨⟨0x05#7⟩, .count ⟨3, by decide⟩⟩

def gymCommand : Command :=
  .createTimed gymTemplate.name gymTemplate.start gymTemplate.stop (some gymRule) false

theorem run_recurring_gym :
    (∃ p, dentistSession.Declined (gymRule.expand gymTemplate) p (dentistSession.run gymCommand)) ∧
      (gymRule.expand gymTemplate).length = 3 ∧
      (dentistSession.run gymCommand).1.store.events.map Event.name = ["Gym", "Dentist"] ∧
      (dentistSession.run gymCommand).2 = .error (.conflict "Dentist") := by
  have hs : dentistSession.Reachable := .run _ (.start _ _ _)
  have hpolicy : Reply.effective dentistSession.policy false = .reject := by decide +kernel
  have hroom : dentistSession.sink.room = none := by decide +kernel
  have hc : gymCommand.template? = some (.ok gymTemplate, some gymRule, false) := by decide +kernel
  exact ⟨(run_recurring hs hroom hc).2.1 hpolicy, by decide +kernel, by decide +kernel,
    by decide +kernel⟩

end Session
end Daybook
