import Daybook.Session.Console
import Daybook.Text.Lines

/-!
Sittings: sessions that read their lines from an opened file while they run. A command may change
that file, so a line is read only when it is due.
-/
namespace Daybook

structure Sitting where
  session : Session
  source : Handle

namespace Sitting

abbrev Action := EStateM Fault Sitting

def onSession (action : Session.Action α) : Action α := fun s =>
  match action s.session with
  | .ok a session => .ok a { s with session }
  | .error fault session => .error fault { s with session }

def refill : Action Bytes := fun s =>
  match s.session.files.read s.source.place s.source.offset (some Bytes.blockSize) with
  | .error fault => .error fault s
  | .ok (block, files) =>
    .ok block
      { session := { s.session with files },
        source := { s.source with offset := s.source.offset + block.length } }

def nextLine : Action (Option (Option String)) := do
  let (line, rest) ← Bytes.takeLine refill Console.limit [] (← get).source.buffer
  modify fun s => { s with source := { s.source with buffer := rest } }
  return line.map fun l => Bytes.toString? l.body

def execute (line : String) : Session.Action (Except Error Outcome) := fun s =>
  match Command.parse line with
  | .error e => .ok (.error (.parse e)) s
  | .ok c =>
    let (s, result) := s.deliver ((s.replyTo c).redirected s.files)
    .ok result s

def console : Console Action :=
  ⟨fun text => onSession (Session.writeAction text), fun line => onSession (execute line)⟩

def script (echo : Bool) : Action Unit :=
  Console.feed nextLine (console.scriptLine echo) Console.limit

def interactive (prompt : String) : Action Unit := do
  console.say Console.banner
  Console.feed (do console.write prompt; nextLine) console.promptLine Console.limit

def after (session : Session) (source : Handle) (action : Action Unit) :
    Session × Option Fault :=
  match action ⟨session, source⟩ with
  | .ok _ s => (s.session, none)
  | .error fault s => (s.session, some fault)

end Sitting
end Daybook
