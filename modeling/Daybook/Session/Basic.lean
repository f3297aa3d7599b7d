import Daybook.Command.Line
import Daybook.Session.Reply
import Daybook.Sink

/-! Sessions: a calendar with its output and its files, and the commands run in it. -/
namespace Daybook

structure Session where
  policy : Policy
  store : Store
  sink : Sink
  files : Files

namespace Session

def start (policy : Policy) (sink : Sink) (files : Files) : Session :=
  ⟨policy, Store.empty, sink, files⟩

def write (s : Session) (text : String) : Session × Bool :=
  let (sink, taken) := s.sink.write text
  ({ s with sink := sink }, taken)

def perform : Session → List Step → Session × Except Error Unit
  | s, [] => (s, .ok ())
  | s, .keep store :: steps => perform { s with store := store } steps
  | s, .add event :: steps => perform { s with store := s.store.add event } steps
  | s, .save path content :: steps =>
    match s.files.replace path (Bytes.ofString content) with
    | .error fault => (s, .error (.exporting path fault))
    | .ok files => perform { s with files := files } steps
  | s, .print text :: steps =>
    match s.write text with
    | (s, true) => perform s steps
    | (s, false) => (s, .error (.output .sinkFull))

def deliver (s : Session) (r : Reply) : Session × Except Error Outcome :=
  match s.perform r.steps with
  | (s, .error e) => (s, .error e)
  | (s, .ok ()) => (s, r.result)

def replyTo (s : Session) (c : Command) : Reply := c.reply s.policy s.files.hereName s.store

def run (s : Session) (c : Command) : Session × Except Error Outcome := s.deliver (s.replyTo c)

def execute (s : Session) (line : String) : Session × Except Error Outcome :=
  match Command.parse line with
  | .error e => (s, .error (.parse e))
  | .ok c => s.run c

end Session
end Daybook
