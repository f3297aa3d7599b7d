import Daybook.Proofs.Results
import Daybook.Proofs.Session.Steps
import Daybook.Session.Console

/-!
Recorded runs: beside the session a journal of its output, in which every byte stands with the
session that is about to write it. Main statements: a journal only grows, and the session at a place
has written only bytes before it.
-/
namespace Daybook

namespace Session

def written : Session → List Step → List (UInt8 × Session)
  | _, [] => []
  | s, step :: steps =>
    step.printed.map (·, s) ++
      match s.take step with
      | (t, .ok ()) => t.written steps
      | (_, .error _) => []

def writtenOn (s : Session) (line : String) : List (UInt8 × Session) :=
  match Command.parse line with
  | .error _ => []
  | .ok c => s.written (s.replyTo c).steps

end Session

structure Record where
  session : Session
  journal : List (UInt8 × Session)

namespace Record
variable {α β : Type} {r : Record}

def bytes (r : Record) : Bytes := r.journal.map Prod.fst

def goOn (r : Record) (s : Session) (written : List (UInt8 × Session)) : Record :=
  ⟨s, r.journal ++ written⟩

theorem goOn_goOn (s t : Session) (written more : List (UInt8 × Session)) :
    (r.goOn s written).goOn t more = r.goOn t (written ++ more) := by
  rw [goOn, goOn, goOn, List.append_assoc]

theorem bytes_goOn (r : Record) (s : Session) (text : Bytes) :
    (r.goOn s (text.map (·, r.session))).bytes = r.bytes ++ text := by
  simp [goOn, bytes, Function.comp_def]

theorem length_bytes (r : Record) : r.bytes.length = r.journal.length := List.length_map _

/-- Each session in the journal has written bytes before its place only, from the first on. -/
def Placed (r : Record) : Prop :=
  ∀ j entry, r.journal[j]? = some entry → ∃ n ≤ j, entry.2.sink.taken = r.bytes.take n

theorem Placed.goOn (h : r.Placed) (hrecorded : r.session.sink.taken = r.bytes) (s : Session)
    (text : Bytes) : (r.goOn s (text.map (·, r.session))).Placed := by
  intro j entry hentry
  have hlength := r.length_bytes
  rw [bytes_goOn]
  by_cases hj : j < r.journal.length
  · rw [Record.goOn, List.getElem?_append_left hj] at hentry
    obtain ⟨n, hn, htaken⟩ := h j entry hentry
    exact ⟨n, hn, by rw [htaken, List.take_append_of_le_length (by omega)]⟩
  · rw [Record.goOn, List.getElem?_append_right (Nat.not_lt.mp hj), List.getElem?_map] at hentry
    obtain ⟨byte, -, rfl⟩ := Option.map_eq_some_iff.mp hentry
    refine ⟨r.journal.length, Nat.not_lt.mp hj, ?_⟩
    rw [hrecorded, ← hlength, List.take_left]

def take (r : Record) (step : Step) : Record × Except Error Unit :=
  (r.goOn (r.session.take step).1 (step.printed.map (·, r.session)), (r.session.take step).2)

def perform (r : Record) (steps : List Step) : Record × Except Error Unit :=
  (r.goOn (r.session.perform steps).1 (r.session.written steps), (r.session.perform steps).2)

theorem perform_cons (r : Record) (step : Step) (steps : List Step) :
    r.perform (step :: steps) =
      match r.take step with
      | (t, .ok ()) => t.perform steps
      | (t, .error e) => (t, .error e) := by
  rw [perform, take, Session.perform_cons, Session.written]
  obtain ⟨t, result⟩ := r.session.take step
  cases result with
  | ok _ =>
    simp only [perform, goOn_goOn]
    rfl
  | error e => simp

theorem perform_grows (r : Record) (steps : List Step) :
    r.journal <+: (r.perform steps).1.journal := List.prefix_append ..

def execute (r : Record) (line : String) : Record × Except Error Outcome :=
  (r.goOn (r.session.execute line).1 (r.session.writtenOn line), (r.session.execute line).2)

abbrev Action := EStateM Fault Record

def recording (action : Session.Action α) (written : Session → List (UInt8 × Session)) :
    Action α := fun r =>
  match action r.session with
  | .ok a s => .ok a (r.goOn s (written r.session))
  | .error fault s => .error fault (r.goOn s (written r.session))

def writeAction (text : String) : Action Unit :=
  recording (Session.writeAction text) fun s => (Bytes.ofString text).map (·, s)

def executeAction (line : String) : Action (Except Error Outcome) :=
  recording (Session.executeAction line) fun s => s.writtenOn line

def console : Console Action := ⟨writeAction, executeAction⟩

def left : EStateM.Result Fault Record α → Record
  | .ok _ r => r
  | .error _ r => r

def after (r : Record) (action : Action Unit) : Record × Option Fault :=
  match action r with
  | .ok _ r => (r, none)
  | .error fault r => (r, some fault)

def start (s : Session) : Record := ⟨s, []⟩

def Grows (action : Action α) : Prop := ∀ r, r.journal <+: (left (action r)).journal

theorem Grows.pure (a : α) : Grows (Pure.pure a) := fun _ => List.prefix_rfl

theorem Grows.throw (fault : Fault) : Grows (throw fault : Action α) := fun _ => List.prefix_rfl

theorem Grows.recording (action : Session.Action α) (written : Session → List (UInt8 × Session)) :
    Grows (recording action written) := fun r => by
  rw [Record.recording]
  cases action r.session <;> exact List.prefix_append ..

theorem Grows.bind {p : Action α} {f : α → Action β} (hp : Grows p) (hf : ∀ a, Grows (f a)) :
    Grows (p >>= f) := fun r => by
  have hfirst := hp r
  cases hresult : p r with
  | error fault t =>
    rw [hresult] at hfirst
    rw [bind_of_error hresult]
    exact hfirst
  | ok a t =>
    rw [hresult] at hfirst
    rw [bind_of_ok hresult]
    exact hfirst.trans (hf a t)

theorem Grows.write (text : String) : Grows (writeAction text) := .recording _ _

theorem Grows.execute (line : String) : Grows (executeAction line) := .recording _ _

theorem Grows.report (line : String) : Grows (console.report line) := by
  refine Grows.bind (Grows.execute line) fun result => ?_
  cases result with
  | error e => exact Grows.write _
  | ok outcome => exact Grows.pure ()

end Record
end Daybook
