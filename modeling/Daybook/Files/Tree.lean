import Daybook.Text.Bytes

/-!
A tree of files as a value. A place in it is the list of the names that lead there from the root.
-/
namespace Daybook

inductive FileEntry where
  | directory
  | file (content : Bytes)
  | link (place : List String)
  | fullDevice
  | nullDevice
  | pipe (held : Bytes)
  | output
  deriving DecidableEq, Repr

/-- Entries by the parts of their paths from the root, and the working directory. -/
structure Files where
  here : List String
  entries : List (List String × FileEntry)
  deriving Repr

namespace Files

def hereName (fs : Files) : String := String.join (fs.here.map ("/" ++ ·))

def entry? (fs : Files) (place : List String) : Option FileEntry :=
  if place.isEmpty then some .directory else fs.entries.lookup place

def resolve (fs : Files) (place : List String) : List String :=
  match fs.entries.lookup place with
  | some (.link target) => target
  | _ => place

def setEntry (fs : Files) (place : List String) (entry : FileEntry) : Files :=
  { fs with entries := (place, entry) :: fs.entries.filter fun e => e.1 != place }

def makeDirectory (fs : Files) (place : List String) : Files :=
  (List.range place.length).foldl (fun fs n =>
    let part := place.take (n + 1)
    if (fs.entry? part).isSome then fs else fs.setEntry part .directory) fs

def makeDirectories (fs : Files) : List String → List (List Char) → Files × List String
  | place, [] => (fs, place)
  | place, p :: ps =>
    if p = [] ∨ p = ['.'] then makeDirectories fs place ps
    else if p = ['.', '.'] then makeDirectories fs place.dropLast ps
    else
      let next := place ++ [String.ofList p]
      makeDirectories (fs.makeDirectory next) next ps

def usualDirectories : List String :=
  ["bin", "dev", "etc", "home", "lib", "media", "mnt", "opt", "proc", "root", "run", "sbin", "srv",
    "sys", "tmp", "usr", "var"]

def fresh (here : List String) : Files :=
  let usual := usualDirectories.foldl (fun fs name => fs.makeDirectory [name]) (Files.mk here [])
  (usual.setEntry ["dev", "full"] .fullDevice
    |>.setEntry ["dev", "null"] .nullDevice
    |>.setEntry ["dev", "zero"] .nullDevice).makeDirectory here

def streams : List String := ["proc", "self", "fd"]

def inputPlace : List String := streams ++ ["0"]

def withStreams (fs : Files) (input : Bytes) : Files :=
  fs.makeDirectory streams
    |>.setEntry inputPlace (.pipe input)
    |>.setEntry (streams ++ ["1"]) .output
    |>.setEntry (streams ++ ["2"]) .nullDevice
    |>.setEntry ["dev", "fd"] (.link streams)
    |>.setEntry ["dev", "stdin"] (.link inputPlace)
    |>.setEntry ["dev", "stdout"] (.link (streams ++ ["1"]))
    |>.setEntry ["dev", "stderr"] (.link (streams ++ ["2"]))

end Files
end Daybook
