import Daybook.Command.Token

/-!
Splitting a line into tokens with their byte spans, and cutting text out of a line by byte spans.
Main statement: cutting at the span of a run gives back its text.
-/
namespace Daybook

structure Span where
  start : Nat
  stop : Nat
  deriving DecidableEq, Repr

def byteLength : List Char → Nat
  | [] => 0
  | c :: cs => c.utf8Size + byteLength cs

@[simp] theorem byteLength_nil : byteLength [] = 0 := rfl

@[simp] theorem byteLength_cons (c : Char) (cs : List Char) :
    byteLength (c :: cs) = c.utf8Size + byteLength cs := rfl

@[simp] theorem byteLength_append (cs ds : List Char) :
    byteLength (cs ++ ds) = byteLength cs + byteLength ds := by
  induction cs with
  | nil => simp
  | cons c cs ih => simp [ih, Nat.add_assoc]

def splitBytes? : Nat → List Char → Option (List Char × List Char)
  | 0, cs => some ([], cs)
  | _ + 1, [] => none
  | n + 1, c :: cs =>
    if c.utf8Size ≤ n + 1 then
      (splitBytes? (n + 1 - c.utf8Size) cs).map fun r => (c :: r.1, r.2)
    else none

def sliceBytes? (cs : List Char) (span : Span) : Option (List Char) := do
  let (_, rest) ← splitBytes? span.start cs
  if span.start ≤ span.stop then
    let (middle, _) ← splitBytes? (span.stop - span.start) rest
    return middle
  else none

@[simp] theorem splitBytes?_append (cs ds : List Char) :
    splitBytes? (byteLength cs) (cs ++ ds) = some (cs, ds) := by
  induction cs with
  | nil => cases ds <;> rfl
  | cons c cs ih =>
    obtain ⟨n, hn⟩ : ∃ n, c.utf8Size + byteLength cs = n + 1 :=
      ⟨c.utf8Size + byteLength cs - 1, by have := c.utf8Size_pos; omega⟩
    rw [byteLength_cons, hn, List.cons_append, splitBytes?, if_pos (by omega)]
    rw [show n + 1 - c.utf8Size = byteLength cs by omega, ih]
    rfl

theorem sliceBytes?_middle (as bs cs : List Char) :
    sliceBytes? (as ++ bs ++ cs) ⟨byteLength as, byteLength as + byteLength bs⟩ = some bs := by
  simp [sliceBytes?, List.append_assoc]

def isSeparator (c : Char) : Bool :=
  c == ' ' || c == '\t' || c == '\r' || c == '\n' || c == '\x0C'

structure Run where
  start : Nat
  text : List Char
  deriving DecidableEq, Repr

def Run.span (r : Run) : Span := ⟨r.start, r.start + byteLength r.text⟩

def runs (pos : Nat) : List Char → List Run
  | [] => []
  | c :: cs =>
    if isSeparator c then runs (pos + c.utf8Size) cs
    else
      match cs.head?.map isSeparator, runs (pos + c.utf8Size) cs with
      | some false, r :: rs => ⟨pos, c :: r.text⟩ :: rs
      | _, rs => ⟨pos, [c]⟩ :: rs

structure Lexeme where
  token : Token
  span : Span
  deriving DecidableEq, Repr

def Run.lexeme (r : Run) : Lexeme := ⟨Token.ofWord r.text, r.span⟩

def lex (line : String) : List Lexeme := (runs 0 line.toList).map Run.lexeme

structure Source where
  text : List Char
  spans : List Span
  deriving DecidableEq, Repr

/-- The text from the first to the last of some tokens, given by their positions. Empty where a
token is missing or a span does not fit the line. -/
def Source.slice (src : Source) (tokens : Span) : String :=
  if tokens.start < tokens.stop then
    match src.spans[tokens.start]?, src.spans[tokens.stop - 1]? with
    | some first, some last => String.ofList ((sliceBytes? src.text ⟨first.start, last.stop⟩).getD [])
    | _, _ => ""
  else ""

end Daybook
