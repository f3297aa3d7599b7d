import Daybook.Proofs.Results
import Daybook.Proofs.Session.Lines
import Daybook.Proofs.Session.Output
import Daybook.Session.Console

/-!
The two ways to feed a session lines. Main statement: where the output has no limit they come to the
same calendar and the same result, and a prompt before each line is all that they write differently.
-/
namespace Daybook

namespace Console

def exits (line : Option String) : Bool := line.any fun text => isExit (command text)

def ends (line : Option String) : Bool := line.isNone || exits line

def upTo (p : Option String → Bool) : List (Option String) → List (Option String)
  | [] => []
  | line :: rest => line :: if p line then [] else upTo p rest

def commands (lines : List (Option String)) : List String :=
  ((lines.takeWhile (!ends ·)).filterMap (·.map command)).filter (· ≠ "")

variable {p : Option String → Bool} {lines : List (Option String)}

theorem upTo_take (n : Nat) : upTo p (lines.take n) = (upTo p lines).take n := by
  induction lines generalizing n with
  | nil => simp [upTo]
  | cons line rest ih =>
    cases n with
    | zero => rfl
    | succ n =>
      rw [List.take_succ_cons, upTo, upTo, List.take_succ_cons, ih n]
      split <;> simp

theorem none_mem_upTo_iff : none ∈ upTo ends lines ↔ none ∈ upTo exits lines := by
  induction lines with
  | nil => exact Iff.rfl
  | cons line rest ih =>
    cases line with
    | none => simp [upTo]
    | some text => cases h : exits (some text) <;> simp [upTo, ends, h, ih]

theorem commands_cons (line : Option String) (rest : List (Option String)) :
    commands (line :: rest) =
      if ends line then []
      else (line.toList.map command).filter (· ≠ "") ++ commands rest := by
  cases h : ends line with
  | true => simp [commands, h]
  | false =>
    cases line with
    | none => cases h
    | some text => by_cases hblank : command text = "" <;> simp [commands, h, hblank]

end Console

namespace Session
open Console (ends upTo commands)
variable {s t : Session} {lines : List (Option String)}

def answer (s : Session) (command : String) : Session :=
  match s.execute command with
  | (t, .error e) => (t.write ("Error: " ++ e.message ++ "\n")).1
  | (t, .ok _) => t

def handle (s : Session) : Option String → Session
  | none => s
  | some line =>
    if Console.command line = "" then s
    else if Console.isExit (Console.command line) then (s.write "Exiting.\n").1
    else s.answer (Console.command line)

def chunks : Session → List (Option String) → List Bytes
  | _, [] => []
  | s, line :: rest =>
    (s.silent.handle line).sink.taken :: chunks (s.handle line) rest

def promptAndHandle (prompt : String) (s : Session) (line : Option String) : Session :=
  (s.write prompt).1.handle line

theorem answer_onto (s : Session) (earlier : Bytes) (command : String) :
    (s.onto earlier).answer command = (s.answer command).onto earlier := by
  rw [answer, answer, execute_onto]
  obtain ⟨t, result⟩ := s.execute command
  cases result with
  | error e => simp only [write_onto]
  | ok outcome => rfl

theorem handle_onto (s : Session) (earlier : Bytes) (line : Option String) :
    (s.onto earlier).handle line = (s.handle line).onto earlier := by
  cases line with
  | none => rfl
  | some text =>
    simp only [handle, write_onto, answer_onto]
    split
    · rfl
    · split <;> rfl

/-- Without a limit, a line does and writes what it would after no other output. -/
theorem handle_eq_onto (hroom : s.sink.room = none) (line : Option String) :
    s.handle line = (s.silent.handle line).onto s.sink.taken := by
  conv_lhs => rw [← silent_onto_taken hroom]
  exact handle_onto _ _ _

theorem answer_of_unlimited (hroom : s.sink.room = none) (command : String) :
    (s.answer command).sink.room = none ∧
      (s.answer command).silent = (s.execute command).1.silent := by
  have hstays := room_execute hroom command
  rw [answer]
  cases hresult : s.execute command with
  | mk t result =>
    rw [hresult] at hstays
    cases result with
    | error e =>
      obtain ⟨-, hreported, -, hsilent⟩ := write_of_unlimited hstays _
      exact ⟨hreported, hsilent⟩
    | ok outcome => exact ⟨hstays, rfl⟩

theorem room_handle (hroom : s.sink.room = none) (line : Option String) :
    (s.handle line).sink.room = none := by
  cases line with
  | none => exact hroom
  | some text =>
    rw [handle]
    split
    · exact hroom
    · split
      · exact (write_of_unlimited hroom _).2.1
      · exact (answer_of_unlimited hroom _).1

theorem after_of_ok {p : Action α} {f : α → Action Unit} {a : α} (h : p s = .ok a t) :
    s.after (p >>= f) = t.after (f a) := by
  rw [after, bind_of_ok h, after]

theorem after_of_error {p : Action α} {f : α → Action Unit} {fault : Fault}
    (h : p s = .error fault t) : s.after (p >>= f) = (t, some fault) := by
  rw [after, bind_of_error h]

theorem write_eq (hroom : s.sink.room = none) (text : String) :
    console.write text s = .ok () (s.write text).1 := by
  have hwrite := (write_of_unlimited hroom text).1
  change writeAction text s = _
  rw [writeAction, hwrite]

theorem report_eq (hroom : s.sink.room = none) (command : String) :
    console.report command s = .ok () (s.answer command) := by
  have hstays := room_execute hroom command
  have hrun : console.run command s = .ok (s.execute command).2 (s.execute command).1 := rfl
  rw [Console.report, bind_of_ok hrun, answer]
  cases hresult : s.execute command with
  | mk t result =>
    rw [hresult] at hstays
    cases result with
    | error e => exact write_eq hstays _
    | ok outcome => rfl

theorem promptLine_eq (hroom : s.sink.room = none) (line : String) :
    console.promptLine (some line) s = .ok (!ends (some line)) (s.handle (some line)) := by
  rw [Console.promptLine, handle]
  cases hexit : Console.isExit (Console.command line) with
  | true =>
    have hends : ends (some line) = true := hexit
    have hblank : Console.command line ≠ "" := by
      intro hblank
      rw [hblank] at hexit
      cases hexit
    rw [if_pos rfl, if_neg hblank, if_pos rfl, hends]
    exact bind_of_ok (write_eq hroom _)
  | false =>
    have hends : ends (some line) = false := hexit
    rw [if_neg Bool.false_ne_true, if_neg Bool.false_ne_true, hends]
    split
    · rfl
    · exact bind_of_ok (report_eq hroom _)

/-- A line of blanks is not the line exit, so it does not matter which of the two is asked first. -/
theorem scriptLine_eq (line : Option String) :
    console.scriptLine false line = console.promptLine line := by
  cases line with
  | none => rfl
  | some line =>
    rw [Console.promptLine, Console.scriptLine]
    by_cases hblank : Console.command line = ""
    · have hexit : Console.isExit "" = false := by decide
      rw [if_pos hblank, hblank, hexit, if_neg Bool.false_ne_true, if_pos rfl]
    · rw [if_neg hblank, if_neg hblank, if_neg Bool.false_ne_true]

theorem write_empty (s : Session) : s.write "" = (s, true) := by
  obtain ⟨policy, store, ⟨reversed, room⟩, files⟩ := s
  cases room with
  | none => rfl
  | some n => simp [write, Sink.write, Bytes.ofString]

/-- A script that echoes nothing is a prompt that shows nothing. -/
theorem after_script (s : Session) (lines : List (Option String)) :
    s.after (console.script false lines) = s.after (console.prompted "" lines) := by
  have hwrite : ∀ s : Session, console.write "" s = .ok () s := fun s => by
    change writeAction "" s = _
    rw [writeAction, write_empty]
  induction lines generalizing s with
  | nil =>
    rw [Console.prompted, after, after, hwrite]
    rfl
  | cons line rest ih =>
    rw [Console.prompted, after_of_ok (hwrite s), Console.script, scriptLine_eq]
    cases hline : console.promptLine line s with
    | error fault t => rw [after_of_error hline, after_of_error hline]
    | ok goesOn t =>
      rw [after_of_ok hline, after_of_ok hline]
      cases goesOn with
      | false => rfl
      | true => exact ih t

theorem after_prompted (prompt : String) (lines : List (Option String))
    (hroom : s.sink.room = none) :
    s.after (console.prompted prompt lines) =
      (let t := (upTo ends lines).foldl (promptAndHandle prompt) s
        if lines.any ends then t else (t.write prompt).1,
        if none ∈ upTo ends lines then some .notUtf8 else none) := by
  induction lines generalizing s with
  | nil =>
    rw [Console.prompted, after, write_eq hroom]
    rfl
  | cons line rest ih =>
    have hstays := (write_of_unlimited hroom prompt).2.1
    rw [Console.prompted, after_of_ok (write_eq hroom prompt)]
    cases line with
    | none => exact after_of_error rfl
    | some text =>
      have hhandled := room_handle hstays (some text)
      rw [after_of_ok (promptLine_eq hstays text)]
      cases hends : ends (some text) with
      | true =>
        simp [upTo, hends, promptAndHandle]
        rfl
      | false => simpa [upTo, hends, promptAndHandle] using ih hhandled

theorem promptAndHandle_empty : promptAndHandle "" = handle := by
  funext s line
  rw [promptAndHandle, write_empty]

theorem after_script_of_unlimited (lines : List (Option String)) (hroom : s.sink.room = none) :
    s.after (console.script false lines) =
      ((upTo ends lines).foldl handle s,
        if none ∈ upTo ends lines then some .notUtf8 else none) := by
  rw [after_script, after_prompted "" lines hroom, promptAndHandle_empty]
  simp only [write_empty, ite_self]

theorem after_interactive (prompt : String) (lines : List (Option String))
    (hroom : s.sink.room = none) :
    s.after (console.interactive prompt lines) =
      (s.write (Console.banner ++ "\n")).1.after (console.prompted prompt lines) :=
  after_of_ok (write_eq hroom _)

/-- A prompt before each line adds itself to the output, and does nothing else. -/
theorem foldl_promptAndHandle (prompt : String) (lines : List (Option String))
    (hs : s.sink.room = none) (ht : t.sink.room = none) (hsilent : t.silent = s.silent) :
    (lines.foldl (promptAndHandle prompt) t).sink.room = none ∧
      (lines.foldl (promptAndHandle prompt) t).silent = (lines.foldl handle s).silent ∧
      (lines.foldl (promptAndHandle prompt) t).sink.taken =
        t.sink.taken ++ (s.chunks lines).flatMap (Bytes.ofString prompt ++ ·) := by
  induction lines generalizing s t with
  | nil => exact ⟨ht, hsilent, by simp [chunks]⟩
  | cons line rest ih =>
    obtain ⟨-, hroom, htaken, hwritten⟩ := write_of_unlimited ht prompt
    have hline := handle_eq_onto hroom line
    rw [hwritten, hsilent, htaken] at hline
    have hnext : (t.promptAndHandle prompt line).silent = (s.handle line).silent := by
      rw [promptAndHandle, hline, handle_eq_onto hs, silent_onto, silent_onto]
    obtain ⟨hlast, hsame, hall⟩ := ih (room_handle hs line) (room_handle hroom line) hnext
    refine ⟨hlast, hsame, hall.trans ?_⟩
    rw [hline, taken_onto, chunks, List.flatMap_cons]
    simp only [List.append_assoc]

theorem taken_foldl_handle (lines : List (Option String)) (hs : s.sink.room = none) :
    (lines.foldl handle s).sink.taken = s.sink.taken ++ (s.chunks lines).flatten := by
  have hall := (foldl_promptAndHandle "" lines hs hs rfl).2.2
  have hempty : Bytes.ofString "" = [] := rfl
  rw [promptAndHandle_empty, hempty] at hall
  simpa using hall

theorem chunks_take (s : Session) (lines : List (Option String)) (n : Nat) :
    s.chunks (lines.take n) = (s.chunks lines).take n := by
  induction lines generalizing s n with
  | nil => simp [chunks]
  | cons line rest ih =>
    cases n with
    | zero => rfl
    | succ n => simp only [List.take_succ_cons, chunks, ih]

theorem length_chunks (s : Session) (lines : List (Option String)) :
    (s.chunks lines).length = lines.length := by
  induction lines generalizing s with
  | nil => rfl
  | cons line rest ih => rw [chunks, List.length_cons, List.length_cons, ih]

/-- The lines read come to the commands among them, and the exit if it is there. -/
theorem foldl_handle_upTo (s : Session) (lines : List (Option String)) :
    (upTo ends lines).foldl handle s =
      if (upTo ends lines).any Console.exits then
        (((commands lines).foldl answer s).write "Exiting.\n").1
      else (commands lines).foldl answer s := by
  induction lines generalizing s with
  | nil => rfl
  | cons line rest ih =>
    rw [Console.commands_cons, upTo, List.foldl_cons, List.any_cons]
    cases line with
    | none => rfl
    | some text =>
      have hends : ends (some text) = Console.isExit (Console.command text) := rfl
      have hexits : Console.exits (some text) = Console.isExit (Console.command text) := rfl
      rw [hends, hexits]
      by_cases hblank : Console.command text = ""
      · have hexit : Console.isExit "" = false := by decide
        simpa [handle, hblank, hexit] using ih s
      · cases hexit : Console.isExit (Console.command text) with
        | true => simp [handle, hblank, hexit]
        | false => simpa [handle, hblank, hexit] using ih (s.answer (Console.command text))

theorem silent_foldl_answer (commands : List String) (hs : s.sink.room = none)
    (ht : t.sink.room = none) (hsilent : s.silent = t.silent) :
    (commands.foldl answer s).sink.room = none ∧
      (commands.foldl answer s).silent = (t.executeAll commands).silent := by
  induction commands generalizing s t with
  | nil => exact ⟨hs, hsilent⟩
  | cons command rest ih =>
    have hexecute : (s.execute command).1.silent = (t.execute command).1.silent := by
      rw [← silent_onto_taken hs, ← silent_onto_taken ht, execute_onto, execute_onto, hsilent,
        silent_onto, silent_onto]
    obtain ⟨hroom, hanswered⟩ := answer_of_unlimited hs command
    exact ih hroom (room_execute ht command) (hanswered.trans hexecute)

end Session
end Daybook
