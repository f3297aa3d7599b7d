import Daybook.Command.Lexeme
import Daybook.Fault
import Daybook.Files.Tree
import Daybook.Text.Pieces

/-!
Path names, which may be relative, may hold dots and repeated slashes, and may end in a slash: the
places that they stand for, and those where they would make a file.
-/
namespace Daybook

def isAbsolute (path : String) : Bool := path.toList.head? == some '/'

/-- A path name that starts at the root: relative names are put after `here`, dots and repeated
slashes are dropped, double dots stay. Two slashes in front, and no more, stay two. -/
def absolutePath (here path : String) : String :=
  let parts := (pieces '/' path.toList).filter fun p => !(p.isEmpty || p == ['.'])
  let joined := (parts.map fun p => '/' :: p).flatten
  if isAbsolute path then
    let double := path.toList.take 2 == ['/', '/'] && path.toList.take 3 != ['/', '/', '/']
    String.ofList (if double then '/' :: joined else joined)
  else here ++ String.ofList joined

namespace Files

def checkDirectory (fs : Files) (place : List String) : Except Fault Unit :=
  match fs.entry? place with
  | some .directory => .ok ()
  | some _ => .error .notDirectory
  | none => .error .missing

/-- Follows the parts of a path name. All but the last place must be a directory; a name has 255
bytes at most. -/
def follow (fs : Files) : List String → List (List Char) → Except Fault (List String)
  | place, [] => .ok place
  | place, p :: ps => do
    fs.checkDirectory place
    if p = [] ∨ p = ['.'] then follow fs place ps
    else if p = ['.', '.'] then follow fs place.dropLast ps
    else if 255 < byteLength p then .error .nameTooLong
    else follow fs (fs.resolve (place ++ [String.ofList p])) ps

def checkName (path : String) : Except Fault Unit :=
  if path.toList.contains '\x00' then .error .nulInName
  else if path = "" then .error .missing
  else if 4096 ≤ byteLength path.toList then .error .nameTooLong
  else .ok ()

def base (fs : Files) (path : String) : List String := if isAbsolute path then [] else fs.here

def find (fs : Files) (path : String) : Except Fault (List String) := do
  checkName path
  let place ← fs.follow (fs.base path) (pieces '/' path.toList)
  if (fs.entry? place).isSome then return place else throw .missing

def dropTrailing (parts : List (List Char)) : List (List Char) × Bool :=
  let kept := (parts.reverse.dropWhile List.isEmpty).reverse
  (kept, kept.length < parts.length)

/-- Where a path name would make a file. A name that ends in a slash or a dot makes none. -/
def creationPlace (fs : Files) (path : String) : Except Fault (List String) := do
  checkName path
  let (parts, slashed) := dropTrailing (pieces '/' path.toList)
  match parts.getLast? with
  | none => throw .isDirectory
  | some name =>
    let parent ← fs.follow (fs.base path) parts.dropLast
    fs.checkDirectory parent
    if slashed ∨ name = ['.'] ∨ name = ['.', '.'] then throw .isDirectory
    else if 255 < byteLength name then throw .nameTooLong
    else
      let place := fs.resolve (parent ++ [String.ofList name])
      if fs.entry? place = some .directory then throw .isDirectory
      else return place

end Files
end Daybook
