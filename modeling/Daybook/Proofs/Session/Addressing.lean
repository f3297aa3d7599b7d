import Daybook.Proofs.Command.Naming
import Daybook.Proofs.Event.Settings
import Daybook.Proofs.Session.Recurring

/-!
Events by their names. Main statement: what a create line makes of an addressable name, a later edit
of that name finds, all of it and nothing else.
-/
namespace Daybook
variable {c : Command} {k : Keyword} {line name property value : String} {p : Patch}

theorem Command.exists_template_of_timeKeyword (hk : c.timeKeyword? = some k)
    (htexts : c.texts = [name]) :
    ∃ made rule declines, c.template? = some (made, rule, declines) ∧
      ∀ template, made = .ok template → template.name = name := by
  cases c with
  | createTimed title start stop rule declines =>
    obtain rfl : title = name := List.singleton_inj.1 htexts
    exact ⟨_, _, _, rfl, fun template htemplate => (Event.of_timed htemplate).2.1⟩
  | createAllDay title date rule declines =>
    obtain rfl : title = name := List.singleton_inj.1 htexts
    exact ⟨_, _, _, rfl, fun template htemplate => (Event.of_onDay htemplate).2.1⟩
  | _ => cases hk

namespace Session
variable {s u : Session} {outcome : Outcome}

def editedLine (count : Nat) (property : String) : String :=
  toString count ++ " event(s) updated with new " ++ property ++ "\n"

/-- An edit of all events of a name, and of no other. It is made whether or not the output takes the
line that reports it. -/
structure EditsNamed (u : Session) (property name : String) (p : Patch)
    (after : Session × Except Error Outcome) : Prop where
  events : after.1.store.events =
    u.store.events.map fun e => if e.name = name then e.apply p else e
  result : after.2 =
    if (u.sink.write (editedLine (u.store.events.countP (·.name == name)) property)).2 then
      .ok (.updated (u.store.events.countP (·.name == name)))
    else .error (.output .sinkFull)

theorem EditsNamed.result_of_unlimited {after : Session × Except Error Outcome}
    (h : u.EditsNamed property name p after) (hroom : u.sink.room = none) :
    after.2 = .ok (.updated (u.store.events.countP (·.name == name))) := by
  rw [h.result, Sink.write, hroom]
  rfl

theorem editsNamed_run (hread : Patch.read? property value = some p) :
    u.EditsNamed property name p (u.run (.editNamed property name value)) := by
  have hreply : u.replyTo (.editNamed property name value) =
      ⟨[.keep (u.store.editNamed name p).1,
        .print (editedLine (u.store.events.countP (·.name == name)) property)],
        .ok (.updated (u.store.events.countP (·.name == name)))⟩ := by
    rw [replyTo, Command.reply, hread]
    simp only [Reply.editMany, editedLine, Step.say, String.append_assoc]
    rfl
  have hevents : (u.store.editNamed name p).1.events =
      u.store.events.map fun e => if e.name = name then e.apply p else e := by
    simp only [Store.editNamed, Store.editAll, beq_iff_eq]
  rw [run, deliver, hreply, perform, perform]
  cases hwrite : u.sink.write (editedLine (u.store.events.countP (·.name == name)) property) with
  | mk sink taken =>
    simp only [write, hwrite]
    cases taken with
    | false => exact ⟨hevents, by rw [hwrite]; rfl⟩
    | true => exact ⟨hevents, by rw [hwrite]; rfl⟩

/-- A create line that uses an addressable name and succeeds brings in events of that name, and the
name is theirs as it is written. An edit of the name, on any calendar, gives the new value to all
events of the name and to no other, and if the output takes the report, it succeeds with their
number. -/
theorem execute_addressable (hname : Addressable name) (hparse : Command.parse line = .ok c)
    (hk : c.timeKeyword? = some k) (huses : Uses line.toList name k)
    (hok : (s.execute line).2 = .ok outcome) :
    (∃ es, s.BringsIn es (s.execute line) ∧ (∀ e ∈ es, e.name = name) ∧
        es.length ≤ (s.execute line).1.store.events.countP (·.name == name)) ∧
      ∀ (u : Session) (property value : String) (p : Patch), Phrase value.toList →
        p ∈ Patch.settings value → sameIgnoringCase property p.property = true →
        u.EditsNamed property name p (u.execute (Command.editNamed property name value).line) ∧
          (u.sink.room = none → (u.execute (Command.editNamed property name value).line).2 =
            .ok (.updated (u.store.events.countP (·.name == name)))) := by
  refine ⟨?_, fun u property value p hvalue hp hproperty => ?_⟩
  · rw [execute, hparse] at hok ⊢
    obtain ⟨made, rule, declines, hc, hmade⟩ :=
      Command.exists_template_of_timeKeyword hk (Command.texts_of_uses hname hparse hk huses)
    obtain ⟨template, htemplate, hbrings⟩ := bringsIn_of_created hc hok
    have hnames : ∀ e ∈ template.occurrences rule, e.name = name := fun e he =>
      (Event.texts_of_mem_occurrences he).1.trans (hmade template htemplate)
    have hcount : (template.occurrences rule).countP (·.name == name) =
        (template.occurrences rule).length :=
      List.countP_eq_length.2 fun e he => beq_iff_eq.2 (hnames e he)
    refine ⟨_, hbrings, hnames, ?_⟩
    rw [hbrings.events.countP_eq, List.countP_append, hcount]
    exact Nat.le_add_left _ _
  · obtain ⟨hne, hunbroken⟩ := Patch.word_of_property hproperty
    have hedits : u.EditsNamed property name p
        (u.execute (Command.editNamed property name value).line) := by
      rw [execute, Command.parse_editNamed hne hunbroken hname hvalue]
      exact editsNamed_run (Patch.read?_eq_some_iff.2 ⟨hp, hproperty⟩)
    exact ⟨hedits, hedits.result_of_unlimited⟩

def syncLine : String := "create event Team --autodecline  Sync on 2024-5-13 repeats MW for 2 times"

def syncCommand : Command :=
  .createAllDay "Team  Sync" ⟨739018, by decide, by decide⟩
    (some ⟨⟨0x05#7⟩, .count ⟨2, by decide⟩⟩) true

theorem addressable_sync : Addressable "Team  Sync" where
  phrase := ⟨⟨'T', "eam  Sync".toList, by decide, by decide⟩,
    ⟨"Team  Syn".toList, 'c', by decide, by decide⟩⟩
  free := by decide +kernel

theorem parse_syncLine : Command.parse syncLine = .ok syncCommand := by decide +kernel

theorem uses_syncLine : Uses syncLine.toList "Team  Sync" .on_ :=
  ⟨"create event".toList, ' ', " on 2024-5-13 repeats MW for 2 times".toList, by decide +kernel,
    by decide, detached_cons (by decide), by decide +kernel, by decide +kernel⟩

theorem phrase_room : Phrase "Room 4".toList :=
  ⟨⟨'R', "oom 4".toList, by decide, by decide⟩, ⟨"Room ".toList, '4', by decide, by decide⟩⟩

theorem execute_syncLine (s : Session) : s.execute syncLine = s.run syncCommand := by
  rw [execute, parse_syncLine]

theorem parse_roomLine : Command.parse (Command.editNamed "Location" "Team  Sync" "Room 4").line =
    .ok (.editNamed "Location" "Team  Sync" "Room 4") := by
  obtain ⟨hne, hunbroken⟩ := @Patch.word_of_property "Location" (.location "Room 4") (by decide)
  exact Command.parse_editNamed hne hunbroken addressable_sync phrase_room

def syncSession : Session := start .warn Sink.unlimited ⟨[], []⟩

/-- The two events of the series get a room. -/
theorem execute_addressable_sync :
    (syncSession.execute syncLine).2 = .ok (.created 2 []) ∧
      ((syncSession.execute syncLine).1.execute
        (Command.editNamed "Location" "Team  Sync" "Room 4").line).2 = .ok (.updated 2) := by
  have hok : (syncSession.execute syncLine).2 = .ok (.created 2 []) := by
    rw [execute_syncLine]
    decide +kernel
  have hroom : (syncSession.execute syncLine).1.sink.room = none := by
    rw [execute_syncLine]
    decide +kernel
  have hcount : (syncSession.execute syncLine).1.store.events.countP (·.name == "Team  Sync") =
      2 := by
    rw [execute_syncLine]
    decide +kernel
  refine ⟨hok, ?_⟩
  rw [← hcount]
  exact ((execute_addressable addressable_sync parse_syncLine rfl uses_syncLine hok).2 _ "Location"
    "Room 4" (.location "Room 4") phrase_room (by decide) (by decide)).2 hroom

def narrowSession : Session := start .warn ⟨[], some 52⟩ ⟨[], []⟩

/-- The edit cannot be reported, so it fails. -/
theorem execute_editNamed_narrow :
    narrowSession.Reachable ∧ Addressable "Team  Sync" ∧ Command.parse syncLine = .ok syncCommand ∧
      syncCommand.timeKeyword? = some .on_ ∧ Uses syncLine.toList "Team  Sync" .on_ ∧
      (narrowSession.execute syncLine).2 = .ok (.created 2 []) ∧ Phrase "Room 4".toList ∧
      .location "Room 4" ∈ Patch.settings "Room 4" ∧
      sameIgnoringCase "Location" (Patch.location "Room 4").property = true ∧
      ((narrowSession.execute syncLine).1.execute
        (Command.editNamed "Location" "Team  Sync" "Room 4").line).2 =
          .error (.output .sinkFull) := by
  refine ⟨.start _ _ _, addressable_sync, parse_syncLine, rfl, uses_syncLine, ?_, phrase_room,
    by decide, by decide, ?_⟩
  · rw [execute_syncLine]
    decide +kernel
  · rw [execute_syncLine, execute, parse_roomLine]
    decide +kernel

end Session
end Daybook
