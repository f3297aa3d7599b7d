import Daybook.Toml.Scalar
import Daybook.Toml.Token

/-! The texts that strings of a TOML document stand for. -/
namespace Daybook.Toml

def escaped? : Char → Option Char
  | 'b' => some '\x08' | 't' => some '\t' | 'n' => some '\n' | 'f' => some '\x0C'
  | 'r' => some '\r' | 'e' => some '\x1B' | '"' => some '"' | '\\' => some '\\' | _ => none

def hexValue (c : Char) : Nat :=
  if c.isDigit then c.toNat - '0'.toNat else c.toLower.toNat - 'a'.toNat + 10

def hexChar? (ds : List Char) : Option Char :=
  let n := ds.foldl (fun n d => 16 * n + hexValue d) 0
  if ds.all isHexDigit && n.isValidChar then some (Char.ofNat n) else none

def pushed (c : Option Char) (text : Option (List Char)) : Option (List Char) := do
  return (← c) :: (← text)

def basicText : List Char → Option (List Char)
  | [] => some []
  | '\\' :: 'x' :: a :: b :: cs => pushed (hexChar? [a, b]) (basicText cs)
  | '\\' :: 'u' :: a :: b :: c :: d :: cs => pushed (hexChar? [a, b, c, d]) (basicText cs)
  | '\\' :: 'U' :: a :: b :: c :: d :: e :: f :: g :: h :: cs =>
    pushed (hexChar? [a, b, c, d, e, f, g, h]) (basicText cs)
  | '\\' :: c :: cs => pushed (escaped? c) (basicText cs)
  | c :: cs => if isPlain c && c != '\\' then pushed (some c) (basicText cs) else none

def literalText (cs : List Char) : Option (List Char) := if cs.all isPlain then some cs else none

inductive Margin where
  | text
  | backslash
  | blanks

def basicLines : Margin → List Char → Option (List Char)
  | .backslash, '\n' :: cs => basicLines .blanks cs
  | .backslash, '\r' :: '\n' :: cs => basicLines .blanks cs
  | .backslash, c :: cs => if isSpace c then basicLines .backslash cs else none
  | .backslash, [] => none
  | .blanks, '\n' :: cs => basicLines .blanks cs
  | .blanks, '\r' :: '\n' :: cs => basicLines .blanks cs
  | .blanks, ' ' :: cs => basicLines .blanks cs
  | .blanks, '\t' :: cs => basicLines .blanks cs
  | _, [] => some []
  | _, '\\' :: 'x' :: a :: b :: cs => pushed (hexChar? [a, b]) (basicLines .text cs)
  | _, '\\' :: 'u' :: a :: b :: c :: d :: cs =>
    pushed (hexChar? [a, b, c, d]) (basicLines .text cs)
  | _, '\\' :: 'U' :: a :: b :: c :: d :: e :: f :: g :: h :: cs =>
    pushed (hexChar? [a, b, c, d, e, f, g, h]) (basicLines .text cs)
  | _, '\\' :: '\n' :: cs => basicLines .blanks cs
  | _, '\\' :: '\r' :: '\n' :: cs => basicLines .blanks cs
  | _, '\\' :: c :: cs =>
    if isSpace c then basicLines .backslash cs else pushed (escaped? c) (basicLines .text cs)
  | _, '\n' :: cs => pushed (some '\n') (basicLines .text cs)
  | _, '\r' :: '\n' :: cs => pushed (some '\r') (pushed (some '\n') (basicLines .text cs))
  | _, c :: cs => if isPlain c && c != '\\' then pushed (some c) (basicLines .text cs) else none

def literalLines : List Char → Option (List Char)
  | [] => some []
  | '\n' :: cs => pushed (some '\n') (literalLines cs)
  | '\r' :: '\n' :: cs => pushed (some '\r') (pushed (some '\n') (literalLines cs))
  | c :: cs => if isPlain c then pushed (some c) (literalLines cs) else none

/-- The text that a string stands for. In three quotes, a line feed right after the opening ones is
dropped. -/
def Quoted.text? (q : Quoted) : Option String :=
  let first := (newline? q.body).getD q.body
  let text := match q.tripled, q.quote == '"' with
    | false, true => basicText q.body
    | false, false => literalText q.body
    | true, true => basicLines .text first
    | true, false => literalLines first
  if q.closed then text.map String.ofList else none

end Daybook.Toml
