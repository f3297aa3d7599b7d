import Daybook.Proofs.Session.Output
import Daybook.Proofs.Session.Recurring
import Daybook.Proofs.Text.TextLines

/-!
What commands write, told by their outcomes. Main statement: where the output has no limit, a command
that comes to the same outcome in two sessions writes the same lines in both: one for each conflict,
one with the number, the flag or the path, and one for each event that is listed.
-/
namespace Daybook

namespace Outcome

def conflicts : Outcome → List String
  | created _ names => names
  | _ => []

def listed : Outcome → List Event
  | events found => found
  | _ => []

def warningLine (name : String) : String := "Warning: Event conflicts with " ++ name

def listedLine (e : Event) : String := " - " ++ e.text

def linesAround (o : Outcome) (headline : String) : List String :=
  o.conflicts.map warningLine ++ headline :: o.listed.map listedLine

end Outcome

def Command.headline? (c : Command) : Outcome → Option String
  | .created n _ =>
    match c.template? with
    | some (.ok template, rule, _) => some (Reply.createdLine template rule n)
    | _ => none
  | .updated n =>
    match c with
    | editSingle .. =>
      some (if n = 0 then "Event not found or update failed." else "Event updated successfully.")
    | editFrom _ _ start _ =>
      some (toString n ++ " event(s) updated " ++ ("starting from " ++ start.literal))
    | editNamed property _ _ => some (toString n ++ " event(s) updated " ++ ("with new " ++ property))
    | _ => none
  | .events found =>
    match c with
    | queryOn date =>
      some (if found = [] then "No events found on " ++ date.text
        else "Events on " ++ date.text ++ ":")
    | queryRange start stop =>
      let range := start.literal ++ " and " ++ stop.literal
      some (if found = [] then "No events found between " ++ range
        else "Events between " ++ range ++ ":")
    | _ => none
  | .status busy =>
    match c with
    | showStatus instant =>
      some ("Status at " ++ instant.literal ++ ": " ++ if busy then "Busy" else "Available")
    | _ => none
  | .exported path =>
    match c with
    | exportTo dialect _ => some ("Exported to " ++ dialect.title ++ ": " ++ path)
    | _ => none

namespace Bytes

def ofLines (lines : List String) : Bytes := lines.flatMap fun line => ofString (line ++ "\n")

theorem ofLines_append (lines more : List String) :
    ofLines (lines ++ more) = ofLines lines ++ ofLines more := List.flatMap_append

theorem rawLines_ofLines {lines : List String} (h : ∀ line ∈ lines, '\n' ∉ line.toList) :
    rawLines (ofLines lines) = lines.map fun line => ⟨ofString line, true⟩ := by
  induction lines with
  | nil => rfl
  | cons line lines ih =>
    have hline : lineFeed ∉ ofString line := fun hmem =>
      h line List.mem_cons_self (lineFeed_mem_ofString.1 hmem)
    have hfeed : ofString "\n" = [lineFeed] := by decide
    have hbytes : ofLines (line :: lines) = ofString line ++ lineFeed :: ofLines lines := by
      simp [ofLines, hfeed]
    rw [hbytes, rawLines_of_cut?_eq_some (cut?_append hline _),
      ih fun more hmore => h more (List.mem_cons_of_mem line hmore), List.map_cons]

end Bytes

theorem Step.printed_say (lines : List String) :
    (lines.map say).flatMap printed = Bytes.ofLines lines := List.flatMap_map ..

theorem Step.printed_after {step : Step} (h : step.printed = []) (line : String) :
    [step, say line].flatMap printed = Bytes.ofLines [line] := by
  rw [List.flatMap_cons, h, List.nil_append]
  exact printed_say [line]

/-- Warnings are written between additions, in the order in which the names are met. -/
theorem Insertion.printed_addingSteps (s : Store) (es : List Event) :
    (addingSteps s es).flatMap Step.printed =
      Bytes.ofLines ((s.namesMet es).map Outcome.warningLine) := by
  induction es generalizing s with
  | nil => rfl
  | cons e es ih =>
    have hmet : ((s.overlapping e).map fun f => warning f.name) =
        (((s.overlapping e).map Event.name).map Outcome.warningLine).map Step.say := by
      rw [List.map_map, List.map_map]
      rfl
    rw [addingSteps, List.flatMap_append, ih, List.flatMap_cons, hmet, Step.printed_say,
      Store.namesMet, List.map_append, Bytes.ofLines_append]
    rfl

theorem Reply.printed_list (events : List Event) (none_ some_ : String) :
    (list events none_ some_).steps.flatMap Step.printed =
      Bytes.ofLines ((if events = [] then none_ else some_) :: events.map Outcome.listedLine) := by
  rw [list, Step.printed_say]
  cases events <;> rfl

namespace Command
variable {c : Command} {outcome : Outcome} {policy : Policy} {here : String} {store : Store}

theorem printed_of_create {template : Event} {rule : Option Rule} {declines : Bool}
    (hc : c.template? = some (.ok template, rule, declines))
    (h : (c.reply policy here store).result = .ok outcome) :
    ∃ headline, c.headline? outcome = some headline ∧
      (c.reply policy here store).steps.flatMap Step.printed =
        Bytes.ofLines (outcome.linesAround headline) := by
  rw [reply_of_template hc] at h ⊢
  obtain haccepted | ⟨hpolicy, p, e, rest, hp, hsplit⟩ :=
    Reply.create_cases (Reply.effective policy declines) store template rule
  · rw [Reply.create_of_accepted haccepted] at h ⊢
    obtain rfl := Except.ok.inj h
    refine ⟨_, by rw [headline?, hc], ?_⟩
    rw [List.flatMap_append, Insertion.printed_addingSteps, Outcome.linesAround,
      Bytes.ofLines_append]
    rfl
  · obtain ⟨f, fs, -, hcreate⟩ := Reply.create_of_declined hp hsplit
    rw [hpolicy, hcreate] at h
    cases h

theorem printed_of_result (h : (c.reply policy here store).result = .ok outcome) :
    ∃ headline, c.headline? outcome = some headline ∧
      (c.reply policy here store).steps.flatMap Step.printed =
        Bytes.ofLines (outcome.linesAround headline) := by
  cases c.kind with
  | invalid hc =>
    rw [reply_of_no_template hc] at h
    cases h
  | creates hc => exact printed_of_create hc h
  | edits htemplate hlooks =>
    cases c with
    | editSingle property name start stop value =>
      rw [reply] at h ⊢
      generalize ((Patch.read? property value).map (store.editOne name start stop)).getD
        (store, false) = made at h ⊢
      obtain ⟨edited, found⟩ := made
      obtain rfl := Except.ok.inj h
      cases found <;> exact ⟨_, rfl, Step.printed_after rfl _⟩
    | editFrom property name start value =>
      obtain rfl := Except.ok.inj h
      exact ⟨_, rfl, Step.printed_after rfl _⟩
    | editNamed property name value =>
      obtain rfl := Except.ok.inj h
      exact ⟨_, rfl, Step.printed_after rfl _⟩
    | createTimed | createAllDay => cases htemplate
    | _ => cases hlooks
  | looks hlooks =>
    cases c with
    | queryOn date =>
      obtain rfl := Except.ok.inj h
      exact ⟨_, rfl, Reply.printed_list ..⟩
    | queryRange start stop =>
      obtain rfl := Except.ok.inj h
      exact ⟨_, rfl, Reply.printed_list ..⟩
    | exportTo dialect path =>
      obtain rfl := Except.ok.inj h
      exact ⟨_, rfl, Step.printed_after rfl _⟩
    | showStatus instant =>
      obtain rfl := Except.ok.inj h
      exact ⟨_, rfl, Step.printed_say [_]⟩
    | _ => cases hlooks

end Command

def begins (text line : String) : Bool := text.toList.isPrefixOf line.toList

def BeginsPlainly (line : String) : Prop :=
  line.toList.head? ≠ some 'W' ∧ line.toList.head? ≠ some ' '

theorem beginsPlainly_toString (n : Nat) (rest : String) : BeginsPlainly (toString n ++ rest) := by
  have hchars : (toString n ++ rest).toList = Nat.toDigits 10 n ++ rest.toList := by
    simp [toString]
  cases hdigits : Nat.toDigits 10 n with
  | nil => exact absurd hdigits Nat.toDigits_ne_nil
  | cons d ds =>
    have hdigit : d.isDigit = true :=
      Nat.isDigit_of_mem_toDigits (by decide) (by decide) (hdigits ▸ List.mem_cons_self)
    rw [BeginsPlainly, hchars, hdigits, List.cons_append, List.head?_cons]
    constructor <;> (rintro ⟨⟩; cases hdigit)

theorem beginsPlainly_createdLine (template : Event) (rule : Option Rule) (n : Nat) :
    BeginsPlainly (Reply.createdLine template rule n) := by
  cases rule <;> cases hday : template.allDay <;> simp [BeginsPlainly, Reply.createdLine, hday]

theorem Command.beginsPlainly_of_headline {c : Command} {outcome : Outcome} {headline : String}
    (h : c.headline? outcome = some headline) : BeginsPlainly headline := by
  cases outcome with
  | created n names =>
    rw [headline?] at h
    split at h
    · obtain rfl := Option.some.inj h
      exact beginsPlainly_createdLine ..
    · cases h
  | updated n =>
    cases c with
    | editSingle =>
      obtain rfl := Option.some.inj h
      by_cases hn : n = 0 <;> simp [BeginsPlainly, hn]
    | editFrom | editNamed =>
      obtain rfl := Option.some.inj h
      rw [String.append_assoc]
      exact beginsPlainly_toString ..
    | _ => cases h
  | events found =>
    cases c with
    | queryOn | queryRange =>
      obtain rfl := Option.some.inj h
      by_cases hfound : found = [] <;> simp [BeginsPlainly, hfound]
    | _ => cases h
  | status busy =>
    cases c with
    | showStatus =>
      obtain rfl := Option.some.inj h
      simp [BeginsPlainly]
    | _ => cases h
  | exported path =>
    cases c with
    | exportTo =>
      obtain rfl := Option.some.inj h
      simp [BeginsPlainly]
    | _ => cases h

theorem begins_append (text rest : String) : begins text (text ++ rest) = true := by
  simp [begins, List.isPrefixOf_iff_prefix]

theorem begins_eq_false {text line : String} {c : Char} (htext : text.toList.head? = some c)
    (hline : line.toList.head? ≠ some c) : begins text line = false := by
  refine Bool.eq_false_iff.2 fun h => hline ?_
  obtain ⟨rest, hrest⟩ := List.isPrefixOf_iff_prefix.1 h
  rw [← hrest, List.head?_append, htext]
  rfl

namespace Outcome
variable {outcome : Outcome} {headline : String}

theorem begins_warningLine (name : String) :
    begins "Warning:" (warningLine name) = true ∧ begins " - " (warningLine name) = false := by
  have hline : warningLine name = "Warning:" ++ (" Event conflicts with " ++ name) := by
    rw [← String.append_assoc]
    rfl
  rw [hline]
  exact ⟨begins_append .., begins_eq_false (c := ' ') (by decide) (by simp)⟩

theorem begins_listedLine (e : Event) :
    begins "Warning:" (listedLine e) = false ∧ begins " - " (listedLine e) = true := by
  rw [listedLine]
  exact ⟨begins_eq_false (c := 'W') (by decide) (by simp), begins_append ..⟩

theorem filter_warnings (h : BeginsPlainly headline) :
    (outcome.linesAround headline).filter (begins "Warning:") =
      outcome.conflicts.map warningLine := by
  have hwarnings : (outcome.conflicts.map warningLine).filter (begins "Warning:") =
      outcome.conflicts.map warningLine := by
    simp [List.filter_eq_self, begins_warningLine]
  have hlisting : (outcome.listed.map listedLine).filter (begins "Warning:") = [] := by
    simp [List.filter_eq_nil_iff, begins_listedLine]
  have hheadline : begins "Warning:" headline = false := begins_eq_false (by decide) h.1
  rw [linesAround, List.filter_append, hwarnings, List.filter_cons_of_neg (by simp [hheadline]),
    hlisting, List.append_nil]

theorem filter_listing (h : BeginsPlainly headline) :
    (outcome.linesAround headline).filter (begins " - ") = outcome.listed.map listedLine := by
  have hwarnings : (outcome.conflicts.map warningLine).filter (begins " - ") = [] := by
    simp [List.filter_eq_nil_iff, begins_warningLine]
  have hlisting : (outcome.listed.map listedLine).filter (begins " - ") =
      outcome.listed.map listedLine := by
    simp [List.filter_eq_self, begins_listedLine]
  have hheadline : begins " - " headline = false := begins_eq_false (by decide) h.2
  rw [linesAround, List.filter_append, hwarnings, List.filter_cons_of_neg (by simp [hheadline]),
    hlisting, List.nil_append]

end Outcome

namespace Session
variable {s t : Session} {steps : List Step} {c : Command} {outcome : Outcome}

/-- Where no step fails and the output has no limit, all that is printed is written. -/
theorem taken_of_perform_ok (hroom : s.sink.room = none) (h : s.perform steps = (t, .ok ())) :
    t.sink.taken = s.sink.taken ++ steps.flatMap Step.printed := by
  induction steps generalizing s with
  | nil =>
    cases h
    exact (List.append_nil _).symm
  | cons step steps ih =>
    cases step with
    | keep store => exact ih (s := { s with store := store }) hroom h
    | add e => exact ih (s := { s with store := s.store.add e }) hroom h
    | save path content =>
      rw [perform] at h
      cases hreplace : s.files.replace path (Bytes.ofString content) with
      | error fault =>
        rw [hreplace] at h
        cases h
      | ok files =>
        rw [hreplace] at h
        exact ih (s := { s with files := files }) hroom h
    | print text =>
      obtain ⟨hwrite, hstays, htaken, -⟩ := write_of_unlimited hroom text
      rw [perform, hwrite] at h
      rw [ih hstays h, htaken, List.append_assoc]
      rfl

theorem taken_of_run_ok (hroom : s.sink.room = none) (h : (s.run c).2 = .ok outcome) :
    ∃ headline, c.headline? outcome = some headline ∧
      (s.run c).1.sink.taken = s.sink.taken ++ Bytes.ofLines (outcome.linesAround headline) := by
  obtain ⟨hresult, -⟩ := deliver_of_ok h
  obtain ⟨headline, hheadline, hprinted⟩ := Command.printed_of_result hresult
  refine ⟨headline, hheadline, ?_⟩
  rw [run, deliver] at h
  rw [run_fst, ← hprinted]
  cases hperform : s.perform (s.replyTo c).steps with
  | mk t result =>
    rw [hperform] at h
    cases result with
    | error e => cases h
    | ok _ => exact taken_of_perform_ok hroom hperform

def quietSession : Session :=
  ((start .warn Sink.unlimited ⟨[], []⟩).run (.createTimed "Dentist"
    ((Instant.ofNumber? 63850755600).get (Eq.refl true)) ((Instant.ofNumber? 63850759200).get (Eq.refl true))
    none false)).1

def busySession : Session :=
  (quietSession.run (.createAllDay "Trip" ⟨739017, by decide, by decide⟩ none false)).1

end Session

end Daybook
