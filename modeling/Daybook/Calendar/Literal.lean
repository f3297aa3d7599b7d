import Daybook.Calendar.Written
import Daybook.Text.Blank

/-!
Reading dates and instants. Blanks may stand before each number, numbers may be short, and a year
with a sign may have any number of digits.
-/
namespace Daybook

inductive LiteralError where
  | tooShort
  | invalid
  | outOfRange
  | trailing
  deriving DecidableEq, Repr

def LiteralError.message : LiteralError → String
  | tooShort => "premature end of input"
  | invalid => "input contains invalid characters"
  | outOfRange => "input is out of range"
  | trailing => "trailing input"

namespace Literal

abbrev Reader (α : Type) := List Char → Except LiteralError (α × List Char)

def number (width : Option Nat) : Reader Nat
  | [] => .error .tooShort
  | cs =>
    let window := match width with
      | some w => cs.take w
      | none => cs
    let ds := window.takeWhile Char.isDigit
    if ds.isEmpty then .error .invalid
    else .ok (Decimal.value ds, cs.drop ds.length)

def yearDigits : Reader Int
  | '-' :: cs => (number none cs).map fun r => (-r.1, r.2)
  | '+' :: cs => (number none cs).map fun r => (r.1, r.2)
  | cs => (number (some 4) cs).map fun r => (r.1, r.2)

def year : Reader Int := fun cs => do
  let (y, rest) ← yearDigits (cs.dropWhile isBlank)
  if -2147483648 ≤ y ∧ y ≤ 2147483647 then .ok (y, rest) else .error .outOfRange

def within (lo hi : Nat) : Reader Nat := fun cs => do
  let (n, rest) ← number (some 2) (cs.dropWhile isBlank)
  if lo ≤ n ∧ n ≤ hi then .ok (n, rest) else .error .outOfRange

def expect (c : Char) : List Char → Except LiteralError (List Char)
  | [] => .error .tooShort
  | d :: cs => if d = c then .ok cs else .error .invalid

inductive Gap where
  | letter
  | blanks
  deriving DecidableEq, Repr

def Gap.skip : Gap → List Char → Except LiteralError (List Char)
  | letter, cs => expect 'T' cs
  | blanks, cs => .ok (cs.dropWhile isBlank)

def civilFields : Reader Civil := fun cs => do
  let (y, cs) ← year cs
  let cs ← expect '-' cs
  let (m, cs) ← within 1 12 cs
  let cs ← expect '-' cs
  let (d, cs) ← within 1 31 cs
  return (⟨y, m, d⟩, cs)

def clockFields : Reader (Nat × Nat) := fun cs => do
  let (h, cs) ← within 0 23 cs
  let cs ← expect ':' cs
  let (m, cs) ← within 0 59 cs
  return ((h, m), cs)

def finish : List Char → Except LiteralError Unit
  | [] => .ok ()
  | _ :: _ => .error .trailing

end Literal

open Literal

def Date.read (text : String) : Except LiteralError Date := do
  let (c, rest) ← civilFields text.toList
  finish rest
  match Date.ofCivil? c with
  | some d => .ok d
  | none => .error .outOfRange

def Instant.read (gap : Gap) (text : String) : Except LiteralError Instant := do
  let (c, cs) ← civilFields text.toList
  let cs ← gap.skip cs
  let ((h, m), rest) ← clockFields cs
  finish rest
  match Date.ofCivil? c with
  | none => .error .outOfRange
  | some d =>
    match Instant.atClock? d h m 0 with
    | some t => .ok t
    | none => .error .outOfRange

end Daybook
