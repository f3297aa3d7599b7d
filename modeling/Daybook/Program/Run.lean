import Daybook.Program.Job
import Daybook.Program.Sitting

/-! A whole run of the program on a file tree and a given input. -/
namespace Daybook

structure ProgramRun where
  output : Bytes
  files : Files
  failure : Option Failure

namespace ProgramRun

def exitCode (r : ProgramRun) : Nat := (r.failure.map Failure.exitCode).getD 0

def stopped (files : Files) (failure : Failure) : ProgramRun :=
  { output := if failure = .refused .version then Bytes.ofString (versionLine ++ "\n") else [],
    files := files,
    failure := some failure }

def ofSession : Session × Option Fault → ProgramRun
  | (s, fault) => ⟨s.sink.taken, s.files, fault.map .fault⟩

def ofJob (files : Files) : Job Handle → ProgramRun
  | .completion _ => ⟨[], files, none⟩
  | .interactive settings =>
    ofSession (Sitting.after (Session.start settings.policy .unlimited files)
      { place := Files.inputPlace } (Sitting.interactive settings.prompt))
  | .script settings commands =>
    ofSession (Sitting.after (Session.start settings.policy .unlimited files) commands
      (Sitting.script settings.echo))

def ofArguments (args : List String) (env : Settings.Environment) (files : Files)
    (input : Bytes) : ProgramRun :=
  match Job.ofArguments ⟨Files.fetch, Files.openFile⟩ env args (files.withStreams input) with
  | (.error failure, files) => stopped files failure
  | (.ok job, files) => ofJob files job

end ProgramRun
end Daybook
