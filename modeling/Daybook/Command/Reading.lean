import Daybook.Command.Lexeme

/-!
Reading clauses off a list of tokens. A reading that fails leaves notes of what it would have
taken and where, also when another reading then succeeds; the furthest notes make the message.
-/
namespace Daybook

inductive Expectation where
  | property
  | eventName
  | literal
  | weekdays
  | value
  | keyword (k : Keyword)
  | anything
  | somethingElse
  | endOfInput
  deriving DecidableEq, Repr

def Expectation.text : Expectation → String
  | property => "property name"
  | eventName => "event name"
  | literal => "date or date-time"
  | weekdays => "weekday letters"
  | value => "new value"
  | keyword k => "'" ++ (Token.keyword k).shown ++ "'"
  | anything => "any"
  | somethingElse => "something else"
  | endOfInput => "end of input"

structure Note where
  place : Nat
  expected : Expectation
  deriving DecidableEq, Repr

def Reading (α : Type) := List Token → Nat → Option (α × Nat) × List Note

namespace Reading

instance : Monad Reading where
  pure a := fun _ i => (some (a, i), [])
  bind p f := fun ts i =>
    match p ts i with
    | (none, ns) => (none, ns)
    | (some (a, j), ns) =>
      let (r, ms) := f a ts j
      (r, ns ++ ms)

def keyword (k : Keyword) : Reading Unit := fun ts i =>
  if ts[i]? = some (.keyword k) then (some ((), i + 1), []) else (none, [⟨i, .keyword k⟩])

def single (e : Expectation) : Reading Span := fun ts i =>
  if i < ts.length then (some (⟨i, i + 1⟩, i + 1), []) else (none, [⟨i, e⟩])

def nameUntil (stops : List Keyword) : Reading Span := fun ts i =>
  let n := ((ts.drop i).takeWhile fun t => !(stops.map Token.keyword).contains t).length
  if n = 0 then (none, [⟨i, .eventName⟩])
  else (some (⟨i, i + n⟩, i + n),
    [⟨i + n, if i + n < ts.length then .somethingElse else .anything⟩])

def rest (e : Expectation) : Reading Span := fun ts i =>
  if i < ts.length then (some (⟨i, ts.length⟩, ts.length), []) else (none, [⟨i, e⟩])

def finish : Reading Unit := fun ts i =>
  if i < ts.length then (none, [⟨i, .endOfInput⟩]) else (some ((), i), [])

def optional (p : Reading α) : Reading (Option α) := fun ts i =>
  match p ts i with
  | (some (a, j), ns) => (some (some a, j), ns)
  | (none, ns) => (some (none, i), ns)

def orElse (p q : Reading α) : Reading α := fun ts i =>
  match p ts i with
  | (some r, ns) => (some r, ns)
  | (none, ns) =>
    let (r, ms) := q ts i
    (r, ns ++ ms)

end Reading

/-- Why tokens fit no command: the furthest place reached, and what was expected there. -/
structure Misfit where
  place : Nat
  found : Option Token
  expected : List Expectation
  deriving DecidableEq, Repr

namespace Misfit

def ofNotes (ts : List Token) (notes : List Note) : Misfit :=
  let place := (notes.map Note.place).foldl max 0
  ⟨place, ts[place]?, ((notes.filter (·.place == place)).map Note.expected).eraseDups⟩

def span (m : Misfit) : Span := ⟨m.place, if m.found.isSome then m.place + 1 else m.place⟩

def alternatives : List String → String
  | [] => ""
  | [a] => a
  | [a, b] => a ++ ", or " ++ b
  | a :: rest => a ++ ", " ++ alternatives rest

def message (m : Misfit) : String :=
  "found " ++ (match m.found with | some t => "'" ++ t.shown ++ "'" | none => "end of input") ++
  " expected " ++ alternatives (m.expected.map Expectation.text)

end Misfit

def Reading.run (p : Reading α) (ts : List Token) : Except Misfit α :=
  match p ts 0 with
  | (some (a, _), _) => .ok a
  | (none, ns) => .error (Misfit.ofNotes ts ns)

end Daybook
