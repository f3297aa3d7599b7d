/-!
Tokens of a TOML text. Comments leave none. Cutting fails at a control character in a comment and at
a carriage return that stands alone; strings are kept as they are written.
-/
namespace Daybook.Toml

def isSpace (c : Char) : Bool := c == ' ' || c == '\t'

def isPlain (c : Char) : Bool := c == '\t' || (0x20 ≤ c.toNat && c.toNat != 0x7F)

def newline? : List Char → Option (List Char)
  | '\n' :: cs => some cs
  | '\r' :: '\n' :: cs => some cs
  | _ => none

structure Quoted where
  quote : Char
  tripled : Bool
  body : List Char
  closed : Bool
  deriving DecidableEq, Repr

inductive Token where
  | dot
  | equals
  | comma
  | openSquare
  | closeSquare
  | openCurly
  | closeCurly
  | newline
  | blanks (text : List Char)
  | quoted (q : Quoted)
  | atom (text : List Char)
  deriving DecidableEq, Repr

namespace Token

def mark? : Char → Option Token
  | '.' => some dot
  | '=' => some equals
  | ',' => some comma
  | '[' => some openSquare
  | ']' => some closeSquare
  | '\x7b' => some openCurly
  | '\x7d' => some closeCurly
  | _ => none

def isAtomic (c : Char) : Bool :=
  (mark? c).isNone && !isSpace c && c != '#' && c != '\r' && c != '\n'

end Token

namespace Quoted

/-- The body of a string in single quotes or double quotes, whether it is closed, and what follows.
A line feed ends it too. In double quotes a backslash takes a quote or a backslash along. -/
def single (quote : Char) : List Char → List Char × Bool × List Char
  | [] => ([], false, [])
  | '\n' :: cs => ([], false, '\n' :: cs)
  | '\\' :: c :: cs =>
    if quote == '"' && (c == '"' || c == '\\') then (single quote cs).map (['\\', c] ++ ·) id
    else (single quote (c :: cs)).map ('\\' :: ·) id
  | c :: cs => if c == quote then ([], true, cs) else (single quote cs).map (c :: ·) id

def triple (quote : Char) : List Char → List Char × Bool × List Char
  | [] => ([], false, [])
  | '\\' :: c :: cs =>
    if quote == '"' && (c == '"' || c == '\\') then (triple quote cs).map (['\\', c] ++ ·) id
    else (triple quote (c :: cs)).map ('\\' :: ·) id
  | c :: cs =>
    if c == quote && cs.take 2 == [quote, quote] then
      let more := ((cs.drop 2).take 2).takeWhile (· == quote)
      (more, true, cs.drop (2 + more.length))
    else (triple quote cs).map (c :: ·) id

def read (quote : Char) (cs : List Char) : Quoted × List Char :=
  if cs.take 2 == [quote, quote] then
    let (body, closed, rest) := triple quote (cs.drop 2)
    (⟨quote, true, body, closed⟩, rest)
  else
    let (body, closed, rest) := single quote cs
    (⟨quote, false, body, closed⟩, rest)

end Quoted

def tokensFrom : Nat → List Char → Option (List Token)
  | _, [] => some []
  | 0, _ => none
  | steps + 1, c :: cs =>
    match Token.mark? c, newline? (c :: cs) with
    | some mark, _ => (tokensFrom steps cs).map (mark :: ·)
    | none, some rest => (tokensFrom steps rest).map (.newline :: ·)
    | none, none =>
      if isSpace c then
        let more := cs.takeWhile isSpace
        (tokensFrom steps (cs.drop more.length)).map (.blanks (c :: more) :: ·)
      else if c == '#' then
        match cs.dropWhile isPlain with
        | [] => some []
        | rest => if (newline? rest).isSome then tokensFrom steps rest else none
      else if c == '\r' then none
      else if c == '"' || c == '\'' then
        let (q, rest) := Quoted.read c cs
        (tokensFrom steps rest).map (.quoted q :: ·)
      else
        let more := cs.takeWhile Token.isAtomic
        (tokensFrom steps (cs.drop more.length)).map (.atom (c :: more) :: ·)

def tokens (text : String) : Option (List Token) :=
  let cs := match text.toList with
    | '\uFEFF' :: cs => cs
    | cs => cs
  tokensFrom cs.length cs

end Daybook.Toml
