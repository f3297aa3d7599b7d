import Daybook.Proofs.Recurrence.Occurrences
import Daybook.Proofs.Session.Steps

/-!
What replies do to the calendar. Main statement: a command takes the calendar through the first of
its operations, and all of them unless a step fails or an event is declined.
-/
namespace Daybook

def Event.occurrences (template : Event) : Option Rule → List Event
  | none => [template]
  | some rule => rule.expand template

theorem Event.texts_of_mem_occurrences {template e : Event} {rule : Option Rule}
    (h : e ∈ template.occurrences rule) : e.name = template.name ∧
      e.description = template.description ∧ e.location = template.location := by
  cases rule with
  | none =>
    rw [List.mem_singleton.1 h]
    exact ⟨rfl, rfl, rfl⟩
  | some rule =>
    obtain ⟨k, hoccurs⟩ := Rule.exists_of_mem_expand h
    obtain ⟨-, -, hname, -, hdescription, hlocation, -⟩ := movedTo?_eq_some_iff.1 hoccurs.moved
    exact ⟨hname, hdescription, hlocation⟩

namespace Insertion
variable {i : Insertion} {policy : Policy} {s : Store} {e f : Event} {es fs p rest : List Event}

def addingSteps (s : Store) : List Event → List Step
  | [] => []
  | e :: es =>
    .add e :: (s.overlapping e).map (fun f => warning f.name) ++ addingSteps (s.add e) es

theorem mem_addingSteps {step : Step} (h : step ∈ addingSteps s es) :
    (∃ e, step = .add e) ∨ ∃ text, step = .print text := by
  induction es generalizing s with
  | nil => cases h
  | cons e es ih =>
    rw [addingSteps, List.mem_append, List.mem_cons, List.mem_map] at h
    obtain (rfl | ⟨f, -, rfl⟩) | h := h
    · exact .inl ⟨e, rfl⟩
    · exact .inr ⟨_, rfl⟩
    · exact ih h

theorem filterMap_added_addingSteps (s : Store) (es : List Event) :
    (addingSteps s es).filterMap Step.added? = es := by
  induction es generalizing s with
  | nil => rfl
  | cons e es ih =>
    have hwarnings : ((s.overlapping e).map fun f => warning f.name).filterMap Step.added? = [] := by
      rw [List.filterMap_map, List.filterMap_eq_nil_iff]
      exact fun _ _ => rfl
    calc
      (addingSteps s (e :: es)).filterMap Step.added?
          = e :: (((s.overlapping e).map fun f => warning f.name) ++
              addingSteps (s.add e) es).filterMap Step.added? := rfl
      _ = e :: es := by rw [List.filterMap_append, hwarnings, ih, List.nil_append]

theorem addingSteps_of_admits (h : s.Admits es) : addingSteps s es = es.map .add := by
  induction es generalizing s with
  | nil => rfl
  | cons e es ih =>
    obtain ⟨he, hes⟩ := Store.admits_cons.1 h
    rw [addingSteps, he, ih hes]
    rfl

theorem add_of_accepted (h : policy = .warn ∨ i.store.overlapping e = []) :
    ∃ j, i.add policy e = .ok j ∧ j.store = i.store.add e ∧
      j.steps.toList =
        i.steps.toList ++ .add e :: (i.store.overlapping e).map (fun f => warning f.name) ∧
      j.conflicts.toList = i.conflicts.toList ++ (i.store.overlapping e).map Event.name ∧
      j.count = i.count + 1 := by
  rw [add, Store.insert_of_accepted h]
  refine ⟨_, rfl, rfl, ?_, ?_, rfl⟩
  · simp [Function.comp_def]
  · simp

theorem foldlM_add (h : policy = .warn ∨ i.store.Admits es) :
    ∃ j, es.foldlM (add policy) i = .ok j ∧ j.store = i.store.addAll es ∧
      j.steps.toList = i.steps.toList ++ addingSteps i.store es ∧
      j.conflicts.toList = i.conflicts.toList ++ i.store.namesMet es ∧
      j.count = i.count + es.length := by
  induction es generalizing i with
  | nil => exact ⟨i, rfl, rfl, by simp [addingSteps], by simp [Store.namesMet], rfl⟩
  | cons e es ih =>
    have hfirst : policy = .warn ∨ i.store.overlapping e = [] :=
      h.imp_right fun h => (Store.admits_cons.1 h).1
    obtain ⟨j, hj, hstore, hsteps, hconflicts, hcount⟩ := add_of_accepted hfirst
    have hrest : policy = .warn ∨ j.store.Admits es :=
      h.imp_right fun h => hstore ▸ (Store.admits_cons.1 h).2
    obtain ⟨k, hk, hstore', hsteps', hconflicts', hcount'⟩ := ih hrest
    rw [hstore] at hstore' hsteps' hconflicts'
    refine ⟨k, ?_, hstore', ?_, ?_, ?_⟩
    · rw [List.foldlM_cons, hj]
      exact hk
    · rw [hsteps', hsteps, addingSteps, List.append_assoc]
    · rw [hconflicts', hconflicts, Store.namesMet, List.append_assoc]
    · rw [hcount', hcount, List.length_cons]
      omega

/-- Events of which one is declined; those before it stay. -/
theorem foldlM_add_of_declined (hp : i.store.Admits p)
    (h : (i.store.addAll p).overlapping e = f :: fs) :
    (p ++ e :: rest).foldlM (add .reject) i =
      .error ⟨i.steps.toList ++ p.map .add, .error (.conflict f.name)⟩ := by
  obtain ⟨j, hj, hstore, hsteps, -⟩ := @foldlM_add i .reject p (.inr hp)
  rw [← hstore] at h
  have hdeclined : j.add .reject e = .error ⟨j.steps.toList, .error (.conflict f.name)⟩ := by
    rw [add, Store.insert_of_declined h]
  rw [List.foldlM_append, hj]
  change (e :: rest).foldlM (add .reject) j = _
  rw [List.foldlM_cons, hdeclined, hsteps, addingSteps_of_admits hp]
  rfl

end Insertion

namespace Reply
open Insertion
variable {policy : Policy} {store : Store} {template : Event} {rule : Option Rule}

def createdLine (template : Event) (rule : Option Rule) (n : Nat) : String :=
  match rule with
  | none =>
    (if template.allDay then "All-day event created: " else "Event created: ") ++ template.text
  | some _ =>
    (if template.allDay then "Recurring all-day event created with "
      else "Recurring event created with ") ++ toString n ++ " occurrences."

theorem create_eq (policy : Policy) (store : Store) (template : Event) (rule : Option Rule) :
    create policy store template rule =
      match (template.occurrences rule).foldlM (Insertion.add policy) (Insertion.start store) with
      | .error declined => declined
      | .ok i => i.reply (createdLine template rule i.count) := by
  cases rule with
  | none =>
    rw [create, Event.occurrences, List.foldlM_cons]
    cases (Insertion.start store).add policy template <;> rfl
  | some rule =>
    rw [create, Rule.foldOccurrences_eq]
    rfl

theorem create_of_accepted (h : policy = .warn ∨ store.Admits (template.occurrences rule)) :
    create policy store template rule =
      ⟨addingSteps store (template.occurrences rule) ++
          [.say (createdLine template rule (template.occurrences rule).length)],
        .ok (.created (template.occurrences rule).length
          (store.namesMet (template.occurrences rule)))⟩ := by
  obtain ⟨i, hi, -, hsteps, hconflicts, hcount⟩ := @foldlM_add (Insertion.start store) policy _ h
  rw [create_eq, hi]
  simp only [Insertion.reply, hsteps, hconflicts, hcount, Insertion.start, List.nil_append,
    Nat.zero_add]

theorem create_of_declined {p rest : List Event} {e : Event}
    (hp : store.LongestAdmitted (template.occurrences rule) p)
    (hsplit : template.occurrences rule = p ++ e :: rest) :
    ∃ f fs, (store.addAll p).overlapping e = f :: fs ∧
      create .reject store template rule = ⟨p.map .add, .error (.conflict f.name)⟩ := by
  obtain ⟨f, fs, hmeets⟩ := List.exists_cons_of_ne_nil (hp.stop hsplit)
  refine ⟨f, fs, hmeets, ?_⟩
  have hdeclined := @foldlM_add_of_declined (Insertion.start store) e f fs p rest hp.admits hmeets
  rw [create_eq, hsplit, hdeclined]
  rfl

/-- All events come in, or one of them is declined. -/
theorem create_cases (policy : Policy) (store : Store) (template : Event) (rule : Option Rule) :
    (policy = .warn ∨ store.Admits (template.occurrences rule)) ∨
      policy = .reject ∧ ∃ p e rest, store.LongestAdmitted (template.occurrences rule) p ∧
        template.occurrences rule = p ++ e :: rest := by
  cases policy with
  | warn => exact .inl (.inl rfl)
  | reject =>
    have hp := store.longestAdmitted_admitted (template.occurrences rule)
    obtain ⟨rest, hrest⟩ := hp.isPrefix
    cases rest with
    | nil =>
      rw [List.append_nil] at hrest
      exact .inl (.inr (Store.admitted_eq_self_iff.1 hrest))
    | cons e rest => exact .inr ⟨rfl, _, e, rest, hp, hrest.symm⟩

theorem mem_steps_create {step : Step} (h : step ∈ (create policy store template rule).steps) :
    (∃ e, step = .add e) ∨ ∃ text, step = .print text := by
  obtain haccepted | ⟨rfl, p, e, rest, hp, hsplit⟩ := create_cases policy store template rule
  · rw [create_of_accepted haccepted] at h
    obtain hadding | hsay := List.mem_append.1 h
    · exact mem_addingSteps hadding
    · exact .inr ⟨_, List.mem_singleton.1 hsay⟩
  · obtain ⟨f, fs, -, hcreate⟩ := create_of_declined hp hsplit
    rw [hcreate] at h
    obtain ⟨e, -, rfl⟩ := List.mem_map.1 h
    exact .inl ⟨e, rfl⟩

theorem keep_not_mem_create (t : Store) : .keep t ∉ (create policy store template rule).steps := by
  intro h
  obtain ⟨e, he⟩ | ⟨text, htext⟩ := mem_steps_create h
  · cases he
  · cases htext

theorem keepIn_create_of_accepted (h : policy = .warn ∨ store.Admits (template.occurrences rule)) :
    (create policy store template rule).steps.foldl Step.keepIn store =
      store.addAll (template.occurrences rule) := by
  rw [Step.foldl_keepIn keep_not_mem_create, create_of_accepted h, List.filterMap_append,
    filterMap_added_addingSteps]
  exact congrArg _ (List.append_nil _)

theorem save_not_mem_create (path content : String) :
    .save path content ∉ (create policy store template rule).steps := by
  intro h
  obtain ⟨e, he⟩ | ⟨text, htext⟩ := mem_steps_create h
  · cases he
  · cases htext

/-- The events that come in by the first steps are occurrences in order, and they are accepted. -/
theorem added_of_create {steps : List Step}
    (h : steps <+: (create policy store template rule).steps) :
    steps.filterMap Step.added? <+: template.occurrences rule ∧
      (policy = .warn ∨ store.Admits (steps.filterMap Step.added?)) := by
  have hadded := h.filterMap Step.added?
  obtain haccepted | ⟨rfl, p, e, rest, hp, hsplit⟩ := create_cases policy store template rule
  · have hlast : [Step.say (createdLine template rule (template.occurrences rule).length)].filterMap
        Step.added? = [] := rfl
    rw [create_of_accepted haccepted, List.filterMap_append, filterMap_added_addingSteps, hlast,
      List.append_nil] at hadded
    refine ⟨hadded, haccepted.imp_right fun hadmits => ?_⟩
    obtain ⟨more, hmore⟩ := hadded
    rw [← hmore] at hadmits
    exact (Store.admits_append.1 hadmits).1
  · obtain ⟨f, fs, -, hcreate⟩ := create_of_declined hp hsplit
    rw [hcreate, Step.filterMap_added_adds] at hadded
    refine ⟨hadded.trans hp.isPrefix, .inr ?_⟩
    obtain ⟨more, hmore⟩ := hadded
    exact (Store.admits_append.1 (hmore ▸ hp.admits)).1

end Reply

end Daybook
