import Daybook.Session.Basic

/-!
The two ways to feed a session lines: a script that may echo them, and a prompt. Both pass over
lines of blanks, report errors and go on, and stop at the line exit.
-/
namespace Daybook

structure Console (m : Type → Type) where
  write : String → m Unit
  run : String → m (Except Error Outcome)

namespace Console
variable {m : Type → Type} [Monad m] [MonadExcept Fault m]

def say (c : Console m) (line : String) : m Unit := c.write (line ++ "\n")

def report (c : Console m) (command : String) : m Unit := do
  match ← c.run command with
  | .error e => c.say ("Error: " ++ e.message)
  | .ok _ => pure ()

def command (line : String) : String := String.ofList (trim line.toList)

def isExit (command : String) : Bool := sameIgnoringCase command "exit"

def scriptLine (c : Console m) (echo : Bool) : Option String → m Bool
  | none => throw Fault.notUtf8
  | some line =>
    if command line = "" then pure true
    else do
      if echo then c.say ("> " ++ line)
      if isExit (command line) then
        c.say "Exiting."
        pure false
      else
        c.report (command line)
        pure true

def promptLine (c : Console m) : Option String → m Bool
  | none => throw Fault.notUtf8
  | some line =>
    if isExit (command line) then do
      c.say "Exiting."
      pure false
    else if command line = "" then pure true
    else do
      c.report (command line)
      pure true

def limit : Nat := 9223372036854775807

@[specialize] def feed (next : m (Option (Option String))) (take : Option String → m Bool) :
    (lines : Nat) → m Unit
  | 0 => pure ()
  | lines + 1 => do
    match ← next with
    | none => pure ()
    | some line => if ← take line then feed next take lines

def script (c : Console m) (echo : Bool) : List (Option String) → m Unit
  | [] => pure ()
  | line :: rest => do
    if ← c.scriptLine echo line then script c echo rest

def banner : String := "Calendar App Interactive Mode. Type 'exit' to quit."

def prompted (c : Console m) (prompt : String) : List (Option String) → m Unit
  | [] => c.write prompt
  | line :: rest => do
    c.write prompt
    if ← c.promptLine line then prompted c prompt rest

def interactive (c : Console m) (prompt : String) (lines : List (Option String)) : m Unit := do
  c.say banner
  c.prompted prompt lines

end Console

namespace Session

abbrev Action := EStateM Fault Session

def writeAction (text : String) : Action Unit := fun s =>
  match s.write text with
  | (s, true) => .ok () s
  | (s, false) => .error .sinkFull s

def executeAction (line : String) : Action (Except Error Outcome) := fun s =>
  let (s, result) := s.execute line
  .ok result s

def console : Console Action := ⟨writeAction, executeAction⟩

def after (s : Session) (action : Action Unit) : Session × Option Fault :=
  match action s with
  | .ok _ s => (s, none)
  | .error fault s => (s, some fault)

def runScript (s : Session) (echo : Bool) (input : Bytes) : Session × Option Fault :=
  s.after (console.script echo input.lines)

def runInteractive (s : Session) (prompt : String) (input : Bytes) : Session × Option Fault :=
  s.after (console.interactive prompt input.lines)

end Session
end Daybook
