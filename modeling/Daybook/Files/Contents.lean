import Daybook.Files.Paths

/-! Reading files, at once or in blocks, and replacing them. -/
namespace Daybook

def FileEntry.bytesFrom (offset : Nat) : FileEntry → Except Fault Bytes
  | directory => .error .isDirectory
  | file content => .ok (content.drop offset)
  | pipe held => .ok held
  | _ => .ok []

inductive Fetched where
  | closed (fault : Fault)
  | unreadable (fault : Fault)
  | content (bytes : Bytes)
  deriving DecidableEq, Repr

structure Handle where
  place : List String
  offset : Nat := 0
  buffer : Bytes := []
  deriving DecidableEq, Repr

namespace Files

def read (fs : Files) (place : List String) (offset : Nat) (count : Option Nat) :
    Except Fault (Bytes × Files) := do
  let entry := (fs.entry? place).getD .nullDevice
  let bytes ← entry.bytesFrom offset
  let taken := (count.map bytes.take).getD bytes
  match entry with
  | .pipe held => return (taken, fs.setEntry place (.pipe (held.drop taken.length)))
  | _ => return (taken, fs)

def fetch (path : String) : StateM Files Fetched := fun fs =>
  match fs.find path with
  | .error fault => (.closed fault, fs)
  | .ok place =>
    match fs.read place 0 none with
    | .error fault => (.unreadable fault, fs)
    | .ok (bytes, fs) => (.content bytes, fs)

def openFile (path : String) : StateM Files (Except Fault Handle) := fun fs =>
  ((fs.find path).map fun place => { place }, fs)

def replace (fs : Files) (path : String) (content : Bytes) : Except Fault Files := do
  let place ← fs.creationPlace path
  match fs.entry? place with
  | some .fullDevice => if content.isEmpty then return fs else throw .noSpace
  | some .nullDevice | some .output => return fs
  | some (.pipe held) => return fs.setEntry place (.pipe (held ++ content))
  | _ => return fs.setEntry place (.file content)

def isOutput (fs : Files) (path : String) : Bool :=
  match fs.creationPlace path with
  | .ok place => fs.entry? place == some .output
  | .error _ => false

end Files
end Daybook
