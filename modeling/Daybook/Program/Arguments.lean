import Daybook.Text.Blank
import Daybook.Text.Similarity

/-!
The arguments of the program. A value is checked only when the next argument shows that it is
complete, so of two mistakes the one that is found first is reported.
-/
namespace Daybook

inductive Shell where
  | bash | elvish | fish | nushell | powershell | zsh
  deriving DecidableEq, Repr

namespace Shell

def name : Shell → String
  | bash => "bash"
  | elvish => "elvish"
  | fish => "fish"
  | nushell => "nushell"
  | powershell => "powershell"
  | zsh => "zsh"

def all : List Shell := [bash, elvish, fish, nushell, powershell, zsh]

def ofName? (text : String) : Option Shell := all.find? fun s => s.name = text

end Shell

inductive Mode where
  | interactive | headless
  deriving DecidableEq, Repr

def Mode.ofName? (text : String) : Option Mode :=
  if sameIgnoringCase text "interactive" then some .interactive
  else if sameIgnoringCase text "headless" then some .headless
  else none

inductive Request where
  | interactive
  | headless (file : String)
  | completion (shell : Shell)
  deriving DecidableEq, Repr

structure Invocation where
  config : Option String
  request : Request
  deriving DecidableEq, Repr

inductive Refusal where
  | help
  | helpForNothing
  | version
  | invalidValue
  | unknownArgument
  | repeatedArgument
  | missingArgument
  | invalidSubcommand
  | unneededValue
  | noMode
  deriving DecidableEq, Repr

namespace Arguments

inductive Shape where
  | divider
  | long (name : String) (value : Option String)
  | short (letter : Char) (rest : List Char)
  | word
  deriving DecidableEq, Repr

def shape (arg : String) : Shape :=
  match arg.toList with
  | ['-', '-'] => .divider
  | '-' :: '-' :: cs =>
    let name := cs.takeWhile (· != '=')
    .long (String.ofList name) ((cs.drop name.length).tail?.map String.ofList)
  | '-' :: c :: cs => .short c cs
  | _ => .word

inductive Slot where
  | config | mode | file
  deriving DecidableEq, Repr

inductive Flag where
  | help
  | version
  | takes (slot : Slot)
  deriving DecidableEq, Repr

def longFlag? : String → Option Flag
  | "help" => some .help
  | "version" => some .version
  | "config" => some (.takes .config)
  | "mode" => some (.takes .mode)
  | _ => none

def shortFlag? : Char → Option Flag
  | 'h' => some .help
  | 'V' => some .version
  | 'c' => some (.takes .config)
  | _ => none

def attached : List Char → Option String
  | [] => none
  | '=' :: cs => some (String.ofList cs)
  | cs => some (String.ofList cs)

structure Given where
  config : Option (Option String) := none
  mode : Option Mode := none
  file : Option String := none
  deriving DecidableEq, Repr

def Given.keep (g : Given) : Slot → Option String → Except Refusal Given
  | .config, value =>
    if g.config.isSome then .error .repeatedArgument
    else if value = some "" then .error .invalidValue
    else .ok { g with config := some value }
  | .mode, none => .error .invalidValue
  | .mode, some text =>
    if g.mode.isSome then .error .repeatedArgument
    else match Mode.ofName? text with
      | none => .error .invalidValue
      | some mode => .ok { g with mode := some mode }
  | .file, value =>
    if value = none ∨ value = some "" then .error .invalidValue
    else .ok { g with file := value }

/-- What was read so far. The last option or word is kept apart, not yet checked. -/
structure Scan where
  given : Given := {}
  pending : Option (Slot × Option String) := none
  deriving DecidableEq, Repr

namespace Scan

def awaits (s : Scan) : Bool :=
  match s.pending with
  | some (_, none) => true
  | _ => false

def settle (s : Scan) : Except Refusal Given :=
  match s.pending with
  | none => .ok s.given
  | some (slot, value) => s.given.keep slot value

def hasFile (s : Scan) : Bool :=
  s.given.file.isSome ||
    match s.pending with
    | some (.file, _) => true
    | _ => false

def flag (s : Scan) : Flag → Option String → Except Refusal Scan
  | .help, none => do let _ ← s.settle; throw .help
  | .version, none => do let _ ← s.settle; throw .version
  | .help, some _ => .error .unneededValue
  | .version, some _ => .error .unneededValue
  | .takes slot, none => do return ⟨← s.settle, some (slot, none)⟩
  | .takes slot, some value => do
    let given ← s.settle
    return ⟨← given.keep slot (some value), none⟩

def long (s : Scan) (name : String) (value : Option String) : Except Refusal Scan :=
  match longFlag? name with
  | none => .error .unknownArgument
  | some f => s.flag f value

/-- Takes a short flag. A flag without a value hides the letters after it. -/
def short (s : Scan) (letter : Char) (rest : List Char) : Except Refusal Scan :=
  match shortFlag? letter with
  | none => .error .unknownArgument
  | some (.takes slot) => s.flag (.takes slot) (attached rest)
  | some f => s.flag f none

end Scan

def completionName : String := "generate-completion"
def helpName : String := "help"

def surplus (word : String) : Refusal :=
  if alike word completionName ∨ alike word helpName then .invalidSubcommand else .unknownArgument

def Scan.file (s : Scan) (word : String) : Except Refusal Scan := do
  if s.hasFile then throw (surplus word)
  return ⟨← s.settle, some (.file, some word)⟩

def Scan.word (s : Scan) (text : String) : Except Refusal Scan :=
  match s.pending with
  | some (slot, none) => .ok { s with pending := some (slot, some text) }
  | _ => s.file text

def Given.invocation (g : Given) : Except Refusal Invocation :=
  if g = {} then .error .helpForNothing
  else match g.mode, g.file with
    | some .headless, none => .error .missingArgument
    | some .headless, some file => .ok ⟨g.config.join, .headless file⟩
    | some .interactive, _ => .ok ⟨g.config.join, .interactive⟩
    | none, _ => .error .noMode

def words (s : Scan) : List String → Except Refusal Invocation
  | [] => do (← s.settle).invocation
  | word :: rest =>
    if s.hasFile ∧ (word = completionName ∨ word = helpName) then .error .unknownArgument
    else do words (← s.file word) rest

def helpOn : List String → Refusal
  | [] => .help
  | [name] => if name = completionName ∨ name = helpName then .help else .invalidSubcommand
  | _ => .invalidSubcommand

def shell (word : String) : Except Refusal Shell :=
  match Shell.ofName? word with
  | none => .error .invalidValue
  | some s => .ok s

def completion : (divided : Bool) → Option String → List String → Except Refusal Shell
  | _, none, [] => .error .missingArgument
  | _, some word, [] => shell word
  | divided, word?, arg :: rest =>
    match divided, shape arg with
    | false, .divider => completion true word? rest
    | false, .long "help" (some _) => .error .unneededValue
    | false, .long "help" none => do let _ ← word?.mapM shell; throw .help
    | false, .short 'h' _ => do let _ ← word?.mapM shell; throw .help
    | false, .long _ _ => .error .unknownArgument
    | false, .short _ _ => .error .unknownArgument
    | _, _ => if word?.isSome then .error .unknownArgument else completion divided (some arg) rest

def scan (s : Scan) : List String → Except Refusal Invocation
  | [] => do (← s.settle).invocation
  | arg :: rest =>
    if !s.awaits ∧ arg = helpName then .error (helpOn rest)
    else if !s.awaits ∧ arg = completionName then do
      let shell ← completion false none rest
      return ⟨(← s.settle).config.join, .completion shell⟩
    else match shape arg with
      | .divider => words s rest
      | .long name value => do scan (← s.long name value) rest
      | .short letter more => do scan (← s.short letter more) rest
      | .word => do scan (← s.word arg) rest

def read (args : List String) : Except Refusal Invocation := scan {} args

end Arguments

namespace Refusal

def message? : Refusal → Option String
  | noMode => some "missing run mode, use --mode interactive|headless"
  | _ => none

def exitCode : Refusal → Nat
  | help | version => 0
  | noMode => 1
  | _ => 2

end Refusal
end Daybook
