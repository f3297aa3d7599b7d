import Daybook.Files.Contents
import Daybook.Store
import Daybook.Toml.Document

/-! Settings: what a TOML file may set, and which file that is. -/
namespace Daybook

structure Settings where
  autoDecline : Bool := false
  prompt : String := "> "
  echo : Bool := true
  logLevel : String := "warn"
  deriving DecidableEq, Repr

namespace Settings

def policy (s : Settings) : Policy := if s.autoDecline then .reject else .warn

abbrev Fields := String → Option Toml.Value

def table? (names : List String) (entries : Toml.Entries) : Option Fields :=
  if entries.all fun e => names.contains e.1 then some fun name => List.lookup name entries else none

/-- The fields of a section. It may be left out, be a table, or be an array that holds the first few
fields in order; what follows the last field in an array counts for nothing. -/
def section? (names : List String) : Option Toml.Value → Option Fields
  | none => some fun _ => none
  | some (.table _ entries) => table? names entries
  | some (.array items) => some fun name => List.lookup name (names.zip items)
  | some _ => none

def boolean? (fallback : Bool) : Option Toml.Value → Option Bool
  | none => some fallback
  | some (.boolean b) => some b
  | some _ => none

def string? (fallback : String) : Option Toml.Value → Option String
  | none => some fallback
  | some (.string text) => some text
  | some _ => none

def ofEntries (entries : Toml.Entries) : Option Settings := do
  let usual : Settings := {}
  let sections ← table? ["core", "cli"] entries
  let core ← section? ["auto_decline"] (sections "core")
  let autoDecline ← boolean? usual.autoDecline (core "auto_decline")
  let cli ← section? ["prompt", "echo", "log_level"] (sections "cli")
  let prompt ← string? usual.prompt (cli "prompt")
  let echo ← boolean? usual.echo (cli "echo")
  let logLevel ← string? usual.logLevel (cli "log_level")
  return { autoDecline, prompt, echo, logLevel }

inductive Error where
  | unreadable (path : String) (cause : Fault)
  | flawed (flaw : Toml.Flaw)
  | unfit
  deriving DecidableEq, Repr

def Error.message : Error → String
  | unreadable path cause => "Failed to read config file at " ++ path ++ ": " ++ cause.message
  | flawed .malformed => "TOML parse error"
  | flawed .deepKey => "recursion limit"
  | unfit => "TOML parse error"

structure Environment where
  file : Option String := none
  directory : Option String := none
  home : Option String := none
  deriving DecidableEq, Repr

structure Location where
  path : String
  optional : Bool
  deriving DecidableEq, Repr

def join (directory name : String) : String :=
  if directory.toList.getLast? == some '/' then directory ++ name else directory ++ "/" ++ name

/-- The file that is asked for; else the one that the environment names; else the usual one. The
directory of all settings counts only if its name starts at the root. -/
def Environment.location? (env : Environment) (asked : Option String) : Option Location :=
  match asked, env.file with
  | some path, _ => some ⟨path, false⟩
  | none, some path => some ⟨path, false⟩
  | none, none =>
    let directory := (env.directory.filter isAbsolute).or (env.home.map (join · ".config"))
    directory.map fun d => ⟨join d "calcmd/config.toml", true⟩

def ofFetched (l : Location) : Fetched → Except Error Settings
  | .closed fault =>
    if l.optional ∧ fault.isAbsence then .ok {} else .error (.unreadable l.path fault)
  | .unreadable fault => .error (.unreadable l.path fault)
  | .content bytes =>
    match bytes.toString? with
    | none => .error (.unreadable l.path .notUtf8)
    | some text =>
      match Toml.read text with
      | .error flaw => .error (.flawed flaw)
      | .ok entries => (ofEntries entries).elim (.error .unfit) .ok

def load {m : Type → Type} [Monad m] (fetch : String → m Fetched) (env : Environment)
    (asked : Option String) : m (Except Error Settings) :=
  match env.location? asked with
  | none => pure (.ok {})
  | some l => do return ofFetched l (← fetch l.path)

end Settings
end Daybook
