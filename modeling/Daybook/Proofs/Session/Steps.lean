import Daybook.Proofs.Store.Series
import Daybook.Session.Basic

/-!
Steps of a session taken in order. Main statements: the calendar is the one after the steps that
were taken, whether or not one failed; and what a failing step is.
-/
namespace Daybook

namespace Step

def keepIn (s : Store) : Step → Store
  | .keep t => t
  | .add e => s.add e
  | .save _ _ | .print _ => s

def printed : Step → Bytes
  | .print text => Bytes.ofString text
  | _ => []

def added? : Step → Option Event
  | .add e => some e
  | _ => none

theorem filterMap_added_adds (es : List Event) : (es.map add).filterMap added? = es := by
  rw [List.filterMap_map]
  exact List.filterMap_some

/-- Steps that put no other calendar in the place of one add their events to it. -/
theorem foldl_keepIn {steps : List Step} (h : ∀ t, .keep t ∉ steps) (s : Store) :
    steps.foldl keepIn s = s.addAll (steps.filterMap added?) := by
  induction steps generalizing s with
  | nil => rfl
  | cons step steps ih =>
    have ih := ih fun t ht => h t (List.mem_cons_of_mem step ht)
    cases step with
    | keep t => exact absurd List.mem_cons_self (h t)
    | add e => exact ih (s.add e)
    | save path content => exact ih s
    | print text => exact ih s

theorem foldl_keepIn_of_quiet {steps : List Step} {s : Store}
    (h : ∀ step ∈ steps, step.keepIn s = s) : steps.foldl keepIn s = s := by
  induction steps with
  | nil => rfl
  | cons step steps ih =>
    rw [List.foldl_cons, h step List.mem_cons_self]
    exact ih fun step' hstep => h step' (List.mem_cons_of_mem step hstep)

end Step

namespace Session
variable {s t : Session} {step : Step} {steps : List Step} {e : Error}

def take (s : Session) : Step → Session × Except Error Unit
  | .keep store => ({ s with store := store }, .ok ())
  | .add event => ({ s with store := s.store.add event }, .ok ())
  | .save path content =>
    match s.files.replace path (Bytes.ofString content) with
    | .error fault => (s, .error (.exporting path fault))
    | .ok files => ({ s with files := files }, .ok ())
  | .print text =>
    match s.write text with
    | (s, true) => (s, .ok ())
    | (s, false) => (s, .error (.output .sinkFull))

theorem perform_cons : s.perform (step :: steps) =
    match s.take step with
    | (t, .ok ()) => t.perform steps
    | (t, .error e) => (t, .error e) := by
  cases step with
  | keep store => rfl
  | add e => rfl
  | save path content =>
    rw [perform, take]
    cases s.files.replace path (Bytes.ofString content) <;> rfl
  | print text =>
    rw [perform, take]
    obtain ⟨u, taken⟩ := s.write text
    cases taken <;> rfl

/-- A change of a session that none of its steps notices, nor changes itself. -/
structure Unnoticed (f : Session → Session) : Prop where
  store (s : Session) : (f s).store = s.store
  files (s : Session) : (f s).files = s.files
  keep (s : Session) (store : Store) : { f s with store := store } = f { s with store := store }
  save (s : Session) (files : Files) : { f s with files := files } = f { s with files := files }
  write (s : Session) (text : String) : (f s).write text = (f (s.write text).1, (s.write text).2)

namespace Unnoticed
variable {f : Session → Session}

theorem take (hf : Unnoticed f) (s : Session) (step : Step) :
    (f s).take step = (f (s.take step).1, (s.take step).2) := by
  cases step with
  | keep store => rw [Session.take, hf.keep, Session.take]
  | add e => rw [Session.take, hf.store, hf.keep, Session.take]
  | save path content =>
    rw [Session.take, Session.take, hf.files]
    cases s.files.replace path (Bytes.ofString content) with
    | error fault => rfl
    | ok files => simp only [hf.save]
  | print text =>
    rw [Session.take, Session.take, hf.write]
    obtain ⟨t, taken⟩ := s.write text
    cases taken <;> rfl

theorem perform (hf : Unnoticed f) (s : Session) (steps : List Step) :
    (f s).perform steps = (f (s.perform steps).1, (s.perform steps).2) := by
  induction steps generalizing s with
  | nil => rfl
  | cons step steps ih =>
    rw [perform_cons, perform_cons, hf.take]
    obtain ⟨t, result⟩ := s.take step
    cases result with
    | ok _ => exact ih t
    | error e => rfl

theorem deliver (hf : Unnoticed f) (s : Session) (r : Reply) :
    (f s).deliver r = (f (s.deliver r).1, (s.deliver r).2) := by
  rw [Session.deliver, Session.deliver, hf.perform]
  obtain ⟨t, result⟩ := s.perform r.steps
  cases result <;> rfl

end Unnoticed

inductive Fails (s : Session) : Step → Session → Error → Prop
  | save {path content fault} : s.files.replace path (Bytes.ofString content) = .error fault →
      Fails s (.save path content) s (.exporting path fault)
  | print {text t} : s.write text = (t, false) → Fails s (.print text) t (.output .sinkFull)

theorem eq_of_write {text : String} {taken : Bool} (h : s.write text = (t, taken)) :
    t = { s with sink := t.sink } := by
  obtain rfl : (s.write text).1 = t := congrArg Prod.fst h
  rfl

theorem Fails.store_eq (h : s.Fails step t e) : t.store = s.store := by
  cases h with
  | save => rfl
  | print hwrite => rw [eq_of_write hwrite]

theorem take_cases (s : Session) (step : Step) :
    (∃ t, s.take step = (t, .ok ()) ∧ t.store = step.keepIn s.store ∧ t.policy = s.policy) ∨
      ∃ t e, s.take step = (t, .error e) ∧ s.Fails step t e := by
  cases step with
  | keep store => exact .inl ⟨_, rfl, rfl, rfl⟩
  | add e => exact .inl ⟨_, rfl, rfl, rfl⟩
  | save path content =>
    rw [take]
    cases hreplace : s.files.replace path (Bytes.ofString content) with
    | error fault => exact .inr ⟨s, _, rfl, .save hreplace⟩
    | ok files => exact .inl ⟨_, rfl, rfl, rfl⟩
  | print text =>
    rw [take]
    cases hwrite : s.write text with
    | mk u taken =>
      cases taken with
      | false => exact .inr ⟨u, _, rfl, .print hwrite⟩
      | true =>
        rw [eq_of_write hwrite]
        exact .inl ⟨_, rfl, rfl, rfl⟩

/-- Steps fail where one of them does, and the steps before it are taken. -/
theorem exists_fails (h : s.perform steps = (t, .error e)) :
    ∃ done step rest u, steps = done ++ step :: rest ∧ s.perform done = (u, .ok ()) ∧
      u.Fails step t e := by
  induction steps generalizing s with
  | nil => cases h
  | cons step steps ih =>
    rw [perform_cons] at h
    obtain ⟨u, hu, -⟩ | ⟨u, e, hu, hfails⟩ := s.take_cases step
    · rw [hu] at h
      obtain ⟨done, last, rest, v, rfl, hdone, hfails⟩ := ih h
      exact ⟨step :: done, last, rest, v, rfl, by rw [perform_cons, hu]; exact hdone, hfails⟩
    · rw [hu] at h
      cases h
      exact ⟨[], step, steps, s, rfl, rfl, hfails⟩

/-- The calendar is the one after the steps that were taken. -/
theorem exists_taken (s : Session) (steps : List Step) :
    ∃ taken, taken <+: steps ∧ (s.perform steps).1.store = taken.foldl Step.keepIn s.store := by
  induction steps generalizing s with
  | nil => exact ⟨[], List.prefix_rfl, rfl⟩
  | cons step steps ih =>
    rw [perform_cons]
    obtain ⟨u, hu, hstore, -⟩ | ⟨u, e, hu, hfails⟩ := s.take_cases step
    · rw [hu]
      obtain ⟨taken, hfirst, htaken⟩ := ih u
      refine ⟨step :: taken, (List.prefix_cons_inj step).2 hfirst, ?_⟩
      rw [htaken, hstore]
      rfl
    · rw [hu]
      exact ⟨[], List.nil_prefix, hfails.store_eq⟩

theorem store_of_perform_ok (h : s.perform steps = (t, .ok ())) :
    t.store = steps.foldl Step.keepIn s.store := by
  induction steps generalizing s with
  | nil =>
    cases h
    rfl
  | cons step steps ih =>
    rw [perform_cons] at h
    obtain ⟨u, hu, hstore, -⟩ | ⟨u, e, hu, -⟩ := s.take_cases step
    · rw [hu] at h
      rw [ih h, hstore]
      rfl
    · rw [hu] at h
      cases h

theorem deliver_of_ok {r : Reply} {outcome : Outcome} (h : (s.deliver r).2 = .ok outcome) :
    r.result = .ok outcome ∧ (s.deliver r).1.store = r.steps.foldl Step.keepIn s.store := by
  rw [deliver] at h ⊢
  cases hperform : s.perform r.steps with
  | mk t result =>
    rw [hperform] at h
    cases result with
    | error e => cases h
    | ok _ => exact ⟨h, store_of_perform_ok hperform⟩

theorem perform_adds (s : Session) (es : List Event) :
    s.perform (es.map .add) = ({ s with store := s.store.addAll es }, .ok ()) := by
  induction es generalizing s with
  | nil => rfl
  | cons e es ih => exact ih { s with store := s.store.add e }

theorem perform_of_unlimited (hroom : s.sink.room = none)
    (hsave : ∀ path content, .save path content ∉ steps) :
    s.perform steps = ({ s with
      store := steps.foldl Step.keepIn s.store
      sink := ⟨(steps.flatMap Step.printed).reverse ++ s.sink.reversed, none⟩ }, .ok ()) := by
  induction steps generalizing s with
  | nil =>
    obtain ⟨policy, store, ⟨reversed, room⟩, files⟩ := s
    obtain rfl : room = none := hroom
    rfl
  | cons step steps ih =>
    have hrest : ∀ path content, .save path content ∉ steps := fun path content hmem =>
      hsave path content (List.mem_cons_of_mem step hmem)
    cases step with
    | keep store => exact ih (s := { s with store := store }) hroom hrest
    | add e => exact ih (s := { s with store := s.store.add e }) hroom hrest
    | save path content => exact absurd List.mem_cons_self (hsave path content)
    | print text =>
      have hwrite : s.write text = ({ s with
          sink := ⟨(Bytes.ofString text).reverse ++ s.sink.reversed, none⟩ }, true) := by
        rw [write, Sink.write, hroom]
      rw [perform, hwrite]
      simp only
      rw [ih rfl hrest]
      simp [Step.keepIn, Step.printed]

end Session
end Daybook
