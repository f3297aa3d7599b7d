import Daybook.Proofs.Session.Operations

/-!
Output that was there before. Main statements: it makes no difference to what a session does and
writes; and an output without a limit stays so.
-/
namespace Daybook.Session
variable {s t : Session} {earlier : Bytes}

def onto (s : Session) (earlier : Bytes) : Session :=
  { s with sink := ⟨s.sink.reversed ++ earlier.reverse, s.sink.room⟩ }

def silent (s : Session) : Session := { s with sink := Sink.unlimited }

theorem taken_onto (s : Session) (earlier : Bytes) :
    (s.onto earlier).sink.taken = earlier ++ s.sink.taken := by
  simp [onto, Sink.taken]

theorem silent_onto (s : Session) (earlier : Bytes) : (s.onto earlier).silent = s.silent := rfl

theorem silent_onto_taken (hroom : s.sink.room = none) : s.silent.onto s.sink.taken = s := by
  obtain ⟨policy, store, ⟨reversed, room⟩, files⟩ := s
  obtain rfl : room = none := hroom
  simp [onto, silent, Sink.unlimited, Sink.taken]

theorem write_onto (s : Session) (earlier : Bytes) (text : String) :
    (s.onto earlier).write text = ((s.write text).1.onto earlier, (s.write text).2) := by
  obtain ⟨policy, store, ⟨reversed, room⟩, files⟩ := s
  cases room with
  | none => simp [onto, write, Sink.write]
  | some n =>
    by_cases hfits : (Bytes.ofString text).length ≤ n <;> simp [onto, write, Sink.write, hfits]

theorem unnoticed_onto (earlier : Bytes) : Unnoticed (onto · earlier) :=
  ⟨fun _ => rfl, fun _ => rfl, fun _ _ => rfl, fun _ _ => rfl, (write_onto · earlier)⟩

theorem execute_onto (s : Session) (earlier : Bytes) (line : String) :
    (s.onto earlier).execute line =
      ((s.execute line).1.onto earlier, (s.execute line).2) := by
  rw [execute, execute]
  cases Command.parse line with
  | error e => rfl
  | ok c =>
    exact (unnoticed_onto earlier).deliver s (s.replyTo c)

theorem write_of_unlimited (hroom : s.sink.room = none) (text : String) :
    s.write text = ((s.write text).1, true) ∧ (s.write text).1.sink.room = none ∧
      (s.write text).1.sink.taken = s.sink.taken ++ Bytes.ofString text ∧
      (s.write text).1.silent = s.silent := by
  obtain ⟨policy, store, ⟨reversed, room⟩, files⟩ := s
  obtain rfl : room = none := hroom
  simp [write, Sink.write, silent]

theorem write_of_le {n : Nat} {text : String} (hroom : s.sink.room = some n)
    (hfits : (Bytes.ofString text).length ≤ n) :
    (s.write text).2 = true ∧
      (s.write text).1.sink.room = some (n - (Bytes.ofString text).length) ∧
      (s.write text).1.sink.taken = s.sink.taken ++ Bytes.ofString text ∧
      (s.write text).1.silent = s.silent := by
  obtain ⟨policy, store, ⟨reversed, room⟩, files⟩ := s
  obtain rfl : room = some n := hroom
  simp [write, Sink.write, Sink.taken, hfits, silent]

theorem write_of_lt {n : Nat} {text : String} (hroom : s.sink.room = some n)
    (hover : n < (Bytes.ofString text).length) :
    (s.write text).2 = false ∧ (s.write text).1.sink.room = some 0 ∧
      (s.write text).1.sink.taken = s.sink.taken ++ (Bytes.ofString text).take n ∧
      (s.write text).1.silent = s.silent := by
  obtain ⟨policy, store, ⟨reversed, room⟩, files⟩ := s
  obtain rfl : room = some n := hroom
  simp [write, Sink.write, Sink.taken, Nat.not_le.mpr hover, silent]

theorem room_perform (hroom : s.sink.room = none) (steps : List Step) :
    (s.perform steps).1.sink.room = none := by
  induction steps generalizing s with
  | nil => exact hroom
  | cons step steps ih =>
    cases step with
    | keep store => exact ih (s := { s with store := store }) hroom
    | add e => exact ih (s := { s with store := s.store.add e }) hroom
    | save path content =>
      rw [perform]
      cases s.files.replace path (Bytes.ofString content) with
      | error fault => exact hroom
      | ok files => exact ih (s := { s with files := files }) hroom
    | print text =>
      obtain ⟨hwrite, hstays, -⟩ := write_of_unlimited hroom text
      rw [perform, hwrite]
      exact ih hstays

theorem room_execute (hroom : s.sink.room = none) (line : String) :
    (s.execute line).1.sink.room = none := by
  rw [execute]
  cases Command.parse line with
  | error e => exact hroom
  | ok c =>
    change (s.run c).1.sink.room = none
    rw [run_fst]
    exact room_perform hroom _

end Daybook.Session
