import Daybook.Program.Job
import Daybook.Session.Console
import Daybook.Text.Lines

/-! The program on the host: its files, its standard streams and its exit code. -/
namespace Daybook.Host

structure State where
  store : Store
  buffer : Bytes

abbrev Action := StateT State (EIO Fault)

def osCode? : IO.Error → Option UInt32
  | .alreadyExists _ code _ | .noFileOrDirectory _ code _ | .interrupted _ code _
  | .invalidArgument _ code _ | .permissionDenied _ code _ | .resourceExhausted _ code _
  | .inappropriateType _ code _ | .noSuchThing _ code _ => some code
  | _ => none

def faultOf (e : IO.Error) : Fault :=
  match osCode? e with
  | some 2 => .missing
  | some 20 => .notDirectory
  | some 21 => .isDirectory
  | some 28 => .noSpace
  | some 36 => .nameTooLong
  | _ => .other (toString e)

def attempt (action : IO α) : EIO Fault α := action.toEIO faultOf

def fetch (path : String) : IO Fetched := do
  if path.toList.contains '\x00' then return .closed .nulInName
  match ← (IO.FS.Handle.mk path .read).toBaseIO with
  | .error e => return .closed (faultOf e)
  | .ok handle =>
    match ← handle.readBinToEnd.toBaseIO with
    | .error e => return .unreadable (faultOf e)
    | .ok bytes => return .content bytes.toList

def openFile (path : String) : IO (Except Fault IO.FS.Stream) := do
  if path.toList.contains '\x00' then return .error .nulInName
  match ← (IO.FS.Handle.mk path .read).toBaseIO with
  | .error e => return .error (faultOf e)
  | .ok handle => return .ok (.ofHandle handle)

def replace (path content : String) : EIO Fault Unit := do
  if path.toList.contains '\x00' then throw .nulInName
  attempt do
    let handle ← IO.FS.Handle.mk path .write
    handle.putStr content
    handle.flush

def write (text : String) : EIO Fault Unit := attempt do
  let out ← IO.getStdout
  out.putStr text
  out.flush

def perform : List Step → Action (Except Error Unit)
  | [] => pure (.ok ())
  | .keep store :: steps => do
    modify fun s => { s with store }
    perform steps
  | .add event :: steps => do
    modify fun s => { s with store := s.store.add event }
    perform steps
  | .save path content :: steps => do
    match ← (replace path content).toBaseIO with
    | .error fault => pure (.error (.exporting path fault))
    | .ok () => perform steps
  | .print text :: steps => do
    match ← (write text).toBaseIO with
    | .error fault => pure (.error (.output fault))
    | .ok () => perform steps

def execute (policy : Policy) (here line : String) : Action (Except Error Outcome) := do
  match Command.parse line with
  | .error e => return .error (.parse e)
  | .ok command =>
    let reply := command.reply policy here (← get).store
    match ← perform reply.steps with
    | .error e => return .error e
    | .ok () => return reply.result

def console (policy : Policy) (here : String) : Console Action :=
  ⟨fun text => write text, execute policy here⟩

def nextLine (input : IO.FS.Stream) (blockSize : Nat) : Action (Option (Option String)) := do
  let refill : Action Bytes := do
    let block ← (attempt (input.read blockSize.toUSize) : EIO Fault ByteArray)
    return block.toList
  let (line, rest) ← Bytes.takeLine refill Console.limit [] (← get).buffer
  modify fun s => { s with buffer := rest }
  return line.map fun l => Bytes.toString? l.body

def script (c : Console Action) (echo : Bool) (commands : IO.FS.Stream) : Action Unit :=
  Console.feed (nextLine commands Bytes.blockSize) (c.scriptLine echo) Console.limit

/-- Prompts for lines. They are read byte by byte, since a terminal makes a longer block wait. -/
def interactive (c : Console Action) (prompt : String) (input : IO.FS.Stream) : Action Unit := do
  c.say Console.banner
  Console.feed (do c.write prompt; nextLine input 1) c.promptLine Console.limit

def usage : String := "Usage: calcmd [-c [CONFIG]] --mode <interactive|headless> [FILE]"

def tell (failure : Failure) : IO UInt32 := do
  match failure, failure.message? with
  | .refused .version, _ => IO.println versionLine
  | .refused .help, _ => IO.println usage
  | _, some message => IO.eprintln ("Error: " ++ message)
  | _, none => IO.eprintln usage
  return failure.exitCode.toUInt32

def finish (action : Action Unit) : IO UInt32 := do
  match ← (action.run ⟨Store.empty, []⟩).toBaseIO with
  | .ok _ => return 0
  | .error fault => tell (.fault fault)

def start (here : String) (input : IO.FS.Stream) : Job IO.FS.Stream → IO UInt32
  | .completion _ => return 0
  | .script settings commands =>
    finish (script (console settings.policy here) settings.echo commands)
  | .interactive settings =>
    finish (interactive (console settings.policy here) settings.prompt input)

end Daybook.Host

open Daybook in
def main (args : List String) : IO UInt32 := do
  let cwd := (← IO.currentDir).toString
  let here := if cwd == "/" then "" else cwd
  let env : Settings.Environment :=
    ⟨← IO.getEnv "CALCMD_CONFIG", ← IO.getEnv "XDG_CONFIG_HOME", ← IO.getEnv "HOME"⟩
  match ← Job.ofArguments ⟨Host.fetch, Host.openFile⟩ env args with
  | .error failure => Host.tell failure
  | .ok job => Host.start here (← IO.getStdin) job
