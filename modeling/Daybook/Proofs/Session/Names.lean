import Daybook.Proofs.Session.Failures
import Daybook.Proofs.Store.Names

/-!
Names of events in sessions. Main statement: neither operations nor commands lead to an event
without a name, but for edits that write the empty name over that of an event.
-/
namespace Daybook
open Store (Operation)

namespace Command
variable {c : Command}

def Blanks (s : Store) (c : Command) : Prop := ∃ op, c.edit? = some op ∧ op.Blanks s

theorem name_ne_empty_of_template {template : Event} {rule : Option Rule} {declines : Bool}
    (h : c.template? = some (.ok template, rule, declines)) : template.name ≠ "" := by
  obtain ⟨name, start, stop, -, hmade⟩ | ⟨name, date, -, hmade⟩ := cases_of_template h
  · obtain ⟨hne, hname, -⟩ := Event.of_timed hmade
    rwa [hname]
  · obtain ⟨hne, hname, -⟩ := Event.of_onDay hmade
    rwa [hname]

theorem edit?_of_template {made : Except EventError Event × Option Rule × Bool}
    (h : c.template? = some made) : c.edit? = none := by
  cases c with
  | createTimed | createAllDay => rfl
  | _ => cases h

theorem edit?_of_looks (h : c.looks = true) : c.edit? = none := by
  cases c with
  | queryOn | queryRange | exportTo | showStatus => rfl
  | _ => cases h

theorem keeps_name_of_template {made : Except EventError Event × Option Rule × Bool}
    (h : c.template? = some made) {policy : Policy} :
    ∀ op ∈ c.operations policy, op.Keeps fun e => e.name ≠ "" := by
  intro op hop
  obtain ⟨template, rule, declines, htemplate, e, he, rfl⟩ | hedit := cases_of_mem_operations hop
  · change e.name ≠ ""
    rw [(Event.texts_of_mem_occurrences he).1]
    exact name_ne_empty_of_template htemplate
  · rw [edit?_of_template h] at hedit
    cases hedit

end Command

namespace Session
variable {s : Session} {c : Command}

/-- An edit is made whether or not it can be reported. -/
theorem store_run_of_edits (htemplate : c.template? = none) (hlooks : c.looks = false) :
    (s.run c).1.store = s.store.run c.edit?.toList := by
  obtain ⟨line, count, hreply⟩ :=
    @Command.reply_of_edits c s.policy s.store s.files.hereName htemplate hlooks
  rw [run_fst, replyTo, hreply]
  change (perform { s with store := s.store.run c.edit?.toList } [.say line]).1.store = _
  obtain ⟨taken, hfirst, hstore⟩ :=
    exists_taken { s with store := s.store.run c.edit?.toList } [.say line]
  rw [hstore]
  refine Step.foldl_keepIn_of_quiet fun step hstep => ?_
  rw [List.mem_singleton.1 (hfirst.subset hstep)]
  rfl

/-- Step: events that have names keep them exactly if the command takes none. -/
theorem named_run_iff (hs : s.store.Named) (c : Command) :
    (s.run c).1.store.Named ↔ ¬ c.Blanks s.store := by
  -- A create command may stop halfway, but whatever it has inserted by then has a name.
  have hcreate : ∀ made, c.template? = some made → (s.run c).1.store.Named := by
    intro made htemplate
    obtain ⟨ops, hfirst, hrun⟩ := s.exists_run_of_run c
    have hops : ∀ op ∈ ops, op.Keeps fun e => e.name ≠ "" := fun op hop =>
      Command.keeps_name_of_template htemplate op (hfirst.subset hop)
    rw [hrun]
    exact Store.forall_mem_run hops hs
  cases c.kind with
  | invalid htemplate | creates htemplate =>
    simp [Command.Blanks, Command.edit?_of_template htemplate, hcreate _ htemplate]
  | edits htemplate hlooks =>
    rw [store_run_of_edits htemplate hlooks]
    cases hedit : c.edit? with
    | none => simpa [Command.Blanks, hedit, Store.run] using hs
    | some op =>
      have hop : op.BringsName := by
        cases c with
        | editSingle | editFrom | editNamed =>
          obtain ⟨p, -, rfl⟩ := Option.map_eq_some_iff.1 hedit
          trivial
        | _ => cases hedit
      simpa [Command.Blanks, hedit, Store.run] using Store.named_perform_iff hs hop
  | looks hlooks =>
    rw [store_run_of_looks hlooks]
    simp [Command.Blanks, Command.edit?_of_looks hlooks, hs]

def runAll (s : Session) (cs : List Command) : Session := cs.foldl (fun s c => (s.run c).1) s

/-- Run: every event has a name all along exactly if no command takes one when its turn comes. -/
theorem named_runAll_iff (hs : s.store.Named) (cs : List Command) :
    (∀ before, before <+: cs → (s.runAll before).store.Named) ↔
      ∀ before c, before ++ [c] <+: cs → ¬ c.Blanks (s.runAll before).store := by
  refine forall_prefix_iff (P := fun t : Session => t.store.Named)
    (Q := fun t c => ¬ c.Blanks t.store) s.runAll hs ?_
  intro before c hl hnamed
  rw [runAll, List.foldl_append]
  exact named_run_iff hnamed c

/-- Constructors build no event without a name, and every event keeps one all along exactly if no
operation or command writes the empty name over that of an event. Edits of the property name with
an empty value do. -/
theorem names_kept_iff {ops : List Operation} (hops : ∀ op ∈ ops, op.BringsName) (policy : Policy)
    (sink : Sink) (files : Files) (cs : List Command) :
    let s := start policy sink files
    ((∀ name start stop e, Event.timed name start stop = .ok e → e.name ≠ "") ∧
        ∀ name date e, Event.onDay name date = .ok e → e.name ≠ "") ∧
      ((∀ before, before <+: ops → (Store.empty.run before).Named) ↔
        ∀ before op, before ++ [op] <+: ops → ¬ op.Blanks (Store.empty.run before)) ∧
      ((∀ before, before <+: cs → (s.runAll before).store.Named) ↔
        ∀ before c, before ++ [c] <+: cs → ¬ c.Blanks (s.runAll before).store) ∧
      ∀ property value, Patch.read? property value = some (.name "") ↔
        sameIgnoringCase property "name" = true ∧ value = "" := by
  intro s
  refine ⟨⟨fun name start stop e h => ?_, fun name date e h => ?_⟩, Store.named_run_iff hops,
    named_runAll_iff Store.named_empty cs, fun property value => Patch.read?_eq_emptyName_iff⟩
  · obtain ⟨hne, hname, -⟩ := Event.of_timed h
    rwa [hname]
  · obtain ⟨hne, hname, -⟩ := Event.of_onDay h
    rwa [hname]

/-- No constructor takes the empty name, but every event takes it over from a patch. -/
theorem names_lost_gym :
    Event.timed "Gym" gymTemplate.start gymTemplate.stop = .ok gymTemplate ∧
      (Store.empty.run [.insert gymTemplate .warn, .editNamed "Gym" (.name "")]).events.map
        Event.name = [""] ∧
      ((start .warn .unlimited ⟨[], []⟩).runAll
        [gymCommand, .editNamed "Name" "Gym" ""]).store.events.map Event.name = ["", "", ""] := by
  decide +kernel

theorem names_kept_gym :
    let ops := [Operation.insert gymTemplate .warn, .editNamed "Gym" (.name "Sport")]
    (∀ op ∈ ops, op.BringsName) ∧ (Store.empty.run ops).Named := by
  intro ops
  have hnames : ∀ op ∈ ops, op.BringsName := by simp [ops, Operation.BringsName, gymTemplate]
  have hpatches : ∀ op ∈ ops, op.patch? ≠ some (.name "") := by decide
  have hkeep : ∀ before op, before ++ [op] <+: ops → ¬ op.Blanks (Store.empty.run before) :=
    fun before op hl hblanks =>
      hpatches op (hl.subset (List.mem_append_right before List.mem_cons_self)) hblanks.1
  have hiff := (names_kept_iff hnames .warn .unlimited ⟨[], []⟩ []).2.1
  exact ⟨hnames, hiff.2 hkeep ops List.prefix_rfl⟩

end Session
end Daybook
