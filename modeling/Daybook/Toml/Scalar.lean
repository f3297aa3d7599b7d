import Daybook.Text.Decimal
import Daybook.Text.Pieces

/-!
Bare values: numbers, dates and times. A number is kept as it is written, and only what tells it from
a date or a word is checked; dates and times are checked in full.
-/
namespace Daybook.Toml

def isHexDigit (c : Char) : Bool :=
  c.isDigit || ('a' ≤ c.toLower && c.toLower ≤ 'f')

def spaced (isDigit : Char → Bool) (cs : List Char) : Bool :=
  let parts := pieces '_' cs
  parts.dropLast.all (fun p => p.getLast?.any isDigit) && parts.tail.all fun p => p.head?.any isDigit

/-- What follows the digits and underscores in front. There must be a digit, and more than one may
start with zero only if `zeros` says so. -/
def skipDigits (zeros : Bool) (cs : List Char) : Option (List Char) :=
  let run := cs.takeWhile fun c => c.isDigit || c == '_'
  let count := run.countP Char.isDigit
  if count = 0 ∨ (1 < count ∧ !zeros ∧ cs.head? = some '0') then none
  else some (cs.drop run.length)

def dropSign : List Char → List Char
  | '+' :: cs => cs
  | '-' :: cs => cs
  | cs => cs

def skipFraction : List Char → Option (List Char)
  | '.' :: cs => skipDigits true cs
  | cs => some cs

def isExponentMark (c : Char) : Bool := c == 'e' || c == 'E'

def skipExponent : List Char → Option (List Char)
  | [] => some []
  | c :: cs => if isExponentMark c then skipDigits true (dropSign cs) else some (c :: cs)

def isFloat (cs : List Char) : Bool :=
  (skipDigits false cs).bind skipFraction |>.bind skipExponent |>.any List.isEmpty

def isRadixed (isDigit : Char → Bool) (cs : List Char) : Bool :=
  cs.all (fun c => isDigit c || c == '_') && spaced isHexDigit cs

def twoDigits (lo hi : Nat) (a b : Char) : Bool :=
  a.isDigit && b.isDigit && lo ≤ Decimal.value [a, b] && Decimal.value [a, b] ≤ hi

def isDate : List Char → Bool
  | [y₁, y₂, y₃, y₄, '-', m₁, m₂, '-', d₁, d₂] =>
    [y₁, y₂, y₃, y₄].all Char.isDigit && twoDigits 1 12 m₁ m₂ &&
    (let year := Decimal.value [y₁, y₂, y₃, y₄]
     let month := Decimal.value [m₁, m₂]
     let last := if month = 2 then
         (if year % 4 = 0 ∧ (year % 100 ≠ 0 ∨ year % 400 = 0) then 29 else 28)
       else if month ∈ [4, 6, 9, 11] then 30 else 31
     twoDigits 1 last d₁ d₂)
  | _ => false

def isClock : List Char → Bool
  | h₁ :: h₂ :: ':' :: m₁ :: m₂ :: rest =>
    twoDigits 0 23 h₁ h₂ && twoDigits 0 59 m₁ m₂ &&
    (match rest with
      | [] => true
      | [':', s₁, s₂] => twoDigits 0 60 s₁ s₂
      | ':' :: s₁ :: s₂ :: '.' :: ds => twoDigits 0 60 s₁ s₂ && !ds.isEmpty && ds.all Char.isDigit
      | _ => false)
  | _ => false

def isZone : List Char → Bool
  | ['Z'] | ['z'] | [] => true
  | sign :: [h₁, h₂, ':', m₁, m₂] =>
    (sign == '+' || sign == '-') && twoDigits 0 23 h₁ h₂ && twoDigits 0 59 m₁ m₂
  | _ => false

def isTimestamp (cs : List Char) : Bool :=
  if isDate cs || isClock cs then true
  else
    let rest := cs.drop 11
    let clock := rest.takeWhile fun c => c.isDigit || c == ':' || c == '.'
    isDate (cs.take 10) && [some 'T', some 't', some ' '].contains cs[10]? && isClock clock &&
    isZone (rest.drop clock.length)

/-- A number or a date from its first digit on; `text` is all of it with its sign. A hyphen or a colon
after the first digits makes it a date. An underscore there makes it a whole number, whose end is
not looked at. -/
def isNumeric (text unsigned : List Char) : Bool :=
  let rest := unsigned.dropWhile Char.isDigit
  let zeroFirst := unsigned.head? == some '0'
  match rest with
  | [] => !zeroFirst || unsigned.length == 1
  | c :: _ =>
    if c == '-' || c == ':' then isTimestamp text
    else if rest.contains ' ' then false
    else if rest.any fun c => c == '.' || isExponentMark c then
      isFloat unsigned && spaced Char.isDigit text
    else c == '_' && !zeroFirst && spaced isHexDigit text

def isSignable (text : List Char) : List Char → Bool
  | ['i', 'n', 'f'] => true
  | ['n', 'a', 'n'] => true
  | c :: cs => c.isDigit && isNumeric text (c :: cs)
  | [] => false

def isScalar : List Char → Bool
  | '0' :: 'x' :: cs => isRadixed isHexDigit cs
  | '0' :: 'o' :: cs => isRadixed (fun c => '0' ≤ c && c ≤ '7') cs
  | '0' :: 'b' :: cs => isRadixed (fun c => c == '0' || c == '1') cs
  | text => isSignable text (dropSign text)

end Daybook.Toml
