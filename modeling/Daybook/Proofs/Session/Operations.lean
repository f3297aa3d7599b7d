import Daybook.Proofs.Session.Replies

/-!
Commands as operations on the calendar. Main statement: a command takes the calendar through the
first of its operations, so that the calendar of a session that is reached from a fresh one is one
that operations on the empty calendar reach.
-/
namespace Daybook
open Store (Operation)

namespace Command
variable {c : Command} {policy : Policy} {store : Store} {here : String}

def template? : Command → Option (Except EventError Event × Option Rule × Bool)
  | createTimed name start stop rule declines => some (Event.timed name start stop, rule, declines)
  | createAllDay name date rule declines => some (Event.onDay name date, rule, declines)
  | _ => none

def edit? : Command → Option Operation
  | editSingle property name start stop value =>
    (Patch.read? property value).map (.editOne name start stop)
  | editFrom property name start value => (Patch.read? property value).map (.editFrom name start)
  | editNamed property name value => (Patch.read? property value).map (.editNamed name)
  | _ => none

def looks : Command → Bool
  | queryOn _ | queryRange _ _ | exportTo _ _ | showStatus _ => true
  | _ => false

def operations (policy : Policy) (c : Command) : List Operation :=
  match c.template? with
  | some (.ok template, rule, declines) =>
    (template.occurrences rule).map (.insert · (Reply.effective policy declines))
  | some (.error _, _) => []
  | none => c.edit?.toList

/-- The operations of a command are insertions of the occurrences of its template, or its edit. -/
theorem cases_of_mem_operations {op : Operation} (hop : op ∈ c.operations policy) :
    (∃ template rule declines, c.template? = some (.ok template, rule, declines) ∧
        ∃ e ∈ template.occurrences rule, op = .insert e (Reply.effective policy declines)) ∨
      c.edit? = some op := by
  rw [operations] at hop
  split at hop
  · rename_i template rule declines htemplate
    obtain ⟨e, he, hinsert⟩ := List.mem_map.1 hop
    exact .inl ⟨template, rule, declines, htemplate, e, he, hinsert.symm⟩
  · cases hop
  · exact .inr (Option.mem_toList.1 hop)

inductive Kind (c : Command) : Prop
  | invalid {e rule declines} : c.template? = some (.error e, rule, declines) → Kind c
  | creates {template rule declines} : c.template? = some (.ok template, rule, declines) → Kind c
  | edits : c.template? = none → c.looks = false → Kind c
  | looks : c.looks = true → Kind c

theorem kind (c : Command) : c.Kind := by
  cases htemplate : c.template? with
  | some made =>
    obtain ⟨made, rule, declines⟩ := made
    cases made with
    | error e => exact .invalid htemplate
    | ok template => exact .creates htemplate
  | none =>
    cases hlooks : c.looks with
    | false => exact .edits htemplate hlooks
    | true => exact .looks hlooks

theorem cases_of_template {made : Except EventError Event} {rule : Option Rule} {declines : Bool}
    (h : c.template? = some (made, rule, declines)) :
    (∃ name start stop, c = createTimed name start stop rule declines ∧
        Event.timed name start stop = made) ∨
      ∃ name date, c = createAllDay name date rule declines ∧ Event.onDay name date = made := by
  cases c with
  | createTimed name start stop =>
    simp only [template?, Option.some.injEq, Prod.mk.injEq] at h
    obtain ⟨hmade, rfl, rfl⟩ := h
    exact .inl ⟨name, start, stop, rfl, hmade⟩
  | createAllDay name date =>
    simp only [template?, Option.some.injEq, Prod.mk.injEq] at h
    obtain ⟨hmade, rfl, rfl⟩ := h
    exact .inr ⟨name, date, rfl, hmade⟩
  | _ => cases h

theorem reply_of_template {template : Event} {rule : Option Rule} {declines : Bool}
    (h : c.template? = some (.ok template, rule, declines)) :
    c.reply policy here store =
      Reply.create (Reply.effective policy declines) store template rule := by
  obtain ⟨name, start, stop, rfl, hmade⟩ | ⟨name, date, rfl, hmade⟩ := cases_of_template h
  · rw [reply, hmade]
  · rw [reply, hmade]

theorem reply_of_no_template {e : EventError} {rule : Option Rule} {declines : Bool}
    (h : c.template? = some (.error e, rule, declines)) :
    c.reply policy here store = Reply.error (.event e) := by
  obtain ⟨name, start, stop, rfl, hmade⟩ | ⟨name, date, rfl, hmade⟩ := cases_of_template h
  · rw [reply, hmade]
  · rw [reply, hmade]

theorem print_of_mem_list {events : List Event} {none_ some_ : String} {step : Step}
    (h : step ∈ (Reply.list events none_ some_).steps) : ∃ text, step = .print text := by
  obtain ⟨line, -, rfl⟩ := List.mem_map.1 h
  exact ⟨_, rfl⟩

/-- A command that looks prints what it finds, or saves the calendar before it prints. -/
theorem reply_of_looks (h : c.looks = true) :
    (∃ outcome, (c.reply policy here store).result = .ok outcome) ∧
      ((∀ step ∈ (c.reply policy here store).steps, ∃ text, step = .print text) ∨
        ∃ path content line,
          (c.reply policy here store).steps = [.save path content, .say line]) := by
  cases c with
  | queryOn date => exact ⟨⟨_, rfl⟩, .inl fun _ => print_of_mem_list⟩
  | queryRange start stop => exact ⟨⟨_, rfl⟩, .inl fun _ => print_of_mem_list⟩
  | exportTo dialect path => exact ⟨⟨_, rfl⟩, .inr ⟨_, _, _, rfl⟩⟩
  | showStatus instant =>
    exact ⟨⟨_, rfl⟩, .inl fun step hstep => ⟨_, List.mem_singleton.1 hstep⟩⟩
  | _ => cases h

theorem quiet_of_looks (h : c.looks = true) {step : Step}
    (hstep : step ∈ (c.reply policy here store).steps) (s : Store) : step.keepIn s = s := by
  obtain ⟨-, hprint | ⟨path, content, line, hsteps⟩⟩ := @reply_of_looks c policy store here h
  · obtain ⟨text, rfl⟩ := hprint step hstep
    rfl
  · rw [hsteps, List.mem_cons, List.mem_singleton] at hstep
    obtain rfl | rfl := hstep <;> rfl

/-- An edit is made before it is reported. -/
theorem reply_of_edits (htemplate : c.template? = none) (hlooks : c.looks = false) :
    ∃ line count, c.reply policy here store =
      ⟨[.keep (store.run c.edit?.toList), .say line], .ok (.updated count)⟩ := by
  cases c with
  | editSingle property name start stop value =>
    rw [reply, edit?]
    cases Patch.read? property value <;> exact ⟨_, _, rfl⟩
  | editFrom property name start value =>
    rw [reply, edit?]
    cases Patch.read? property value <;> exact ⟨_, _, rfl⟩
  | editNamed property name value =>
    rw [reply, edit?]
    cases Patch.read? property value <;> exact ⟨_, _, rfl⟩
  | createTimed | createAllDay => cases htemplate
  | _ => cases hlooks

theorem exists_run_of_reply {steps : List Step}
    (h : steps <+: (c.reply policy here store).steps) :
    ∃ ops, ops <+: c.operations policy ∧ steps.foldl Step.keepIn store = store.run ops := by
  cases c.kind with
  | invalid htemplate =>
    rw [reply_of_no_template htemplate] at h
    obtain rfl := List.prefix_nil.1 h
    exact ⟨[], List.nil_prefix, rfl⟩
  | creates htemplate =>
    rw [reply_of_template htemplate] at h
    obtain ⟨hadded, haccepted⟩ := Reply.added_of_create h
    rw [operations, htemplate]
    refine ⟨_, hadded.map _, ?_⟩
    rw [Step.foldl_keepIn fun t ht => Reply.keep_not_mem_create t (h.subset ht),
      Store.run_insert haccepted]
  | edits htemplate hlooks =>
    obtain ⟨line, count, hreply⟩ := @reply_of_edits c policy store here htemplate hlooks
    rw [hreply] at h
    rw [operations, htemplate]
    -- nothing is taken, or the edit is made first of all
    cases steps with
    | nil => exact ⟨[], List.nil_prefix, rfl⟩
    | cons step steps =>
      obtain ⟨rfl, hrest⟩ := List.cons_prefix_cons.1 h
      refine ⟨_, List.prefix_rfl, ?_⟩
      change steps.foldl Step.keepIn (store.run c.edit?.toList) = store.run c.edit?.toList
      refine Step.foldl_keepIn_of_quiet fun step hstep => ?_
      rw [List.mem_singleton.1 (hrest.subset hstep)]
      rfl
  | looks hlooks =>
    refine ⟨[], List.nil_prefix, Step.foldl_keepIn_of_quiet fun step hstep => ?_⟩
    exact quiet_of_looks hlooks (h.subset hstep) store

end Command

namespace Session
variable {s : Session}

theorem run_fst (s : Session) (c : Command) :
    (s.run c).1 = (s.perform (s.replyTo c).steps).1 := by
  rw [run, deliver]
  cases s.perform (s.replyTo c).steps with
  | mk t result => cases result <;> rfl

/-- Step: a command takes the calendar through the first of its operations. -/
theorem exists_run_of_run (s : Session) (c : Command) :
    ∃ ops, ops <+: c.operations s.policy ∧ (s.run c).1.store = s.store.run ops := by
  obtain ⟨taken, hfirst, hstore⟩ := s.exists_taken (s.replyTo c).steps
  obtain ⟨ops, hops, hrun⟩ := Command.exists_run_of_reply hfirst
  exact ⟨ops, hops, by rw [run_fst, hstore, hrun]⟩

/-- Sessions that commands lead to from a fresh one. Between two commands the files may change, and
the output may take in other texts. -/
inductive Reachable : Session → Prop
  | start (policy : Policy) (sink : Sink) (files : Files) : Reachable (start policy sink files)
  | run {s : Session} (c : Command) : Reachable s → Reachable (s.run c).1
  | outside {s : Session} (sink : Sink) (files : Files) :
      Reachable s → Reachable { s with sink := sink, files := files }

theorem Reachable.execute (h : Reachable s) (line : String) : Reachable (s.execute line).1 := by
  rw [Session.execute]
  cases Command.parse line with
  | error e => exact h
  | ok c => exact h.run c

/-- Run: the calendar of a session that is reached is one that operations on the empty one reach. -/
theorem Reachable.exists_run (h : Reachable s) : ∃ ops, s.store = Store.empty.run ops := by
  induction h with
  | start => exact ⟨[], rfl⟩
  | @run s c _ ih =>
    obtain ⟨ops, hops⟩ := ih
    obtain ⟨more, -, hmore⟩ := s.exists_run_of_run c
    exact ⟨ops ++ more, by rw [hmore, hops, Store.run_append]⟩
  | outside _ _ _ ih => exact ih

theorem Reachable.sorted (h : Reachable s) : s.store.Sorted := by
  obtain ⟨ops, hops⟩ := h.exists_run
  rw [hops]
  exact Store.sorted_empty.run ops

end Session
end Daybook
