import Daybook.Toml.Token

/-!
The structure of a TOML text: its headers and pairs, with words as they are written. Whether a word
is a proper key or value is not asked here.
-/
namespace Daybook.Toml

inductive Word where
  | bare (text : List Char)
  | quoted (q : Quoted)
  deriving DecidableEq, Repr

abbrev Key := List Word

inductive Raw where
  | word (w : Word)
  | array (items : List Raw)
  | table (pairs : List (Key × Raw))

inductive Statement where
  | header (doubled : Bool) (key : Key)
  | pair (key : Key) (value : Raw)

abbrev Reader (α : Type) := List Token → Option (α × List Token)

def skipBlanks : List Token → List Token
  | .blanks _ :: ts => ts
  | ts => ts

def skipLines : List Token → List Token
  | .blanks _ :: ts => skipLines ts
  | .newline :: ts => skipLines ts
  | ts => ts

def endOfLine (ts : List Token) : Option (List Token) :=
  match skipBlanks ts with
  | [] => some []
  | .newline :: ts => some ts
  | _ => none

def keyPart : List Token → Word × List Token
  | .atom text :: ts => (.bare text, ts)
  | .quoted q :: ts => (.quoted q, ts)
  | ts => (.bare [], ts)

def key : (steps : Nat) → List Token → Key × List Token
  | 0, ts => ([], ts)
  | steps + 1, ts =>
    let (part, ts) := keyPart (skipBlanks ts)
    match skipBlanks ts with
    | .dot :: ts =>
      let (parts, ts) := key steps ts
      (part :: parts, ts)
    | ts => ([part], ts)

def bareText : List Token → List Char × List Token
  | .atom text :: ts => (bareText ts).map (text ++ ·) id
  | .dot :: ts => (bareText ts).map ('.' :: ·) id
  | .blanks blank :: .atom text :: ts => (bareText ts).map (blank ++ text ++ ·) id
  | ts => ([], ts)

def bareWord (ts : List Token) : Raw × List Token :=
  (bareText ts).map (fun text => .word (.bare text)) id

def maxDepth : Nat := 80

mutual

/-- A value with at most `depth` arrays and braces inside one another. At the end of a line and before
a closing brace, one that is left out is a bare text of no characters. -/
def value : (steps depth : Nat) → Reader Raw
  | steps + 1, depth + 1, .openSquare :: ts =>
    (items steps depth (skipLines ts)).map fun r => (.array r.1, r.2)
  | steps + 1, depth + 1, .openCurly :: ts =>
    (pairs steps depth (skipLines ts)).map fun r => (.table r.1, r.2)
  | _, _, .quoted q :: ts => some (.word (.quoted q), ts)
  | _, _, .atom text :: ts => some (bareWord (.atom text :: ts))
  | _, _, .dot :: ts => some (bareWord (.dot :: ts))
  | _, _, .newline :: ts => some (.word (.bare []), .newline :: ts)
  | _, _, .closeCurly :: ts => some (.word (.bare []), .closeCurly :: ts)
  | _, _, [] => some (.word (.bare []), [])
  | _, _, _ => none

def items : (steps depth : Nat) → Reader (List Raw)
  | 0, _, _ => none
  | _, _, .closeSquare :: ts => some ([], ts)
  | steps + 1, depth, ts => do
    let (v, ts) ← value steps depth ts
    match skipLines ts with
    | .comma :: ts => (items steps depth (skipLines ts)).map fun r => (v :: r.1, r.2)
    | .closeSquare :: ts => some ([v], ts)
    | _ => none

def pairs : (steps depth : Nat) → Reader (List (Key × Raw))
  | 0, _, _ => none
  | _, _, .closeCurly :: ts => some ([], ts)
  | steps + 1, depth, ts => do
    let (k, ts) := key steps ts
    match skipLines ts with
    | .equals :: ts =>
      let (v, ts) ← value steps depth (skipLines ts)
      match skipLines ts with
      | .comma :: ts => (pairs steps depth (skipLines ts)).map fun r => ((k, v) :: r.1, r.2)
      | .closeCurly :: ts => some ([(k, v)], ts)
      | _ => none
    | _ => none

end

def statement (steps : Nat) : Reader Statement
  | .openSquare :: .openSquare :: ts =>
    match key steps ts with
    | (k, .closeSquare :: .closeSquare :: ts) => some (.header true k, ts)
    | _ => none
  | .openSquare :: ts =>
    match key steps ts with
    | (k, .closeSquare :: ts) => some (.header false k, ts)
    | _ => none
  | ts =>
    match key steps ts with
    | (k, .equals :: ts) => do
      let (v, ts) ← value steps maxDepth (skipBlanks ts)
      return (.pair k v, ts)
    | _ => none

def statementsFrom : (steps : Nat) → List Token → Option (List Statement)
  | 0, _ => none
  | steps + 1, ts =>
    match skipLines ts with
    | [] => some []
    | ts => do
      let (s, ts) ← statement steps ts
      return s :: (← statementsFrom steps (← endOfLine ts))

def statements (text : String) : Option (List Statement) := do
  let ts ← tokens text
  statementsFrom (2 * ts.length + 2) ts

end Daybook.Toml
