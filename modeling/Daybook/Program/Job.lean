import Daybook.Program.Arguments
import Daybook.Program.Settings

/-! From the arguments of the program to the work it has to do, and what it says when it cannot. -/
namespace Daybook

inductive Failure where
  | refused (cause : Refusal)
  | settings (cause : Settings.Error)
  | noScript (file : String) (cause : Fault)
  | fault (cause : Fault)
  deriving DecidableEq, Repr

namespace Failure

def message? : Failure → Option String
  | refused cause => cause.message?
  | settings cause => some cause.message
  | noScript file cause => some ("cannot open command file " ++ file ++ ": " ++ cause.message)
  | fault cause => some cause.message

def exitCode : Failure → Nat
  | refused cause => cause.exitCode
  | _ => 1

end Failure

def versionLine : String := "calcmd 0.1.0"

inductive Job (Input : Type) where
  | interactive (settings : Settings)
  | script (settings : Settings) (commands : Input)
  | completion (shell : Shell)

structure Access (m : Type → Type) (Input : Type) where
  fetch : String → m Fetched
  openFile : String → m (Except Fault Input)

namespace Job
variable {m : Type → Type} [Monad m] {Input : Type}

def ofInvocation (access : Access m Input) (env : Settings.Environment) (i : Invocation) :
    m (Except Failure (Job Input)) :=
  match i.request with
  | .completion shell => pure (.ok (.completion shell))
  | .interactive => do
    match ← Settings.load access.fetch env i.config with
    | .error e => return .error (.settings e)
    | .ok s => return .ok (.interactive s)
  | .headless file => do
    match ← Settings.load access.fetch env i.config with
    | .error e => return .error (.settings e)
    | .ok s =>
      match ← access.openFile file with
      | .error fault => return .error (.noScript file fault)
      | .ok commands => return .ok (.script s commands)

def ofArguments (access : Access m Input) (env : Settings.Environment) (args : List String) :
    m (Except Failure (Job Input)) :=
  match Arguments.read args with
  | .error r => pure (.error (.refused r))
  | .ok i => ofInvocation access env i

end Job
end Daybook
