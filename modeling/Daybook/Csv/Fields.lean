/-!
Fields of a line of comma-separated text. A field in quotes may hold commas, and quotes written
twice.
-/
namespace Daybook.Csv

def quoteChars (cs : List Char) : List Char :=
  '"' :: cs.flatMap (fun c => if c = '"' then ['"', '"'] else [c]) ++ ['"']

def quote (text : String) : String := String.ofList (quoteChars text.toList)

inductive FieldError where
  | unterminated
  | strayQuote
  deriving DecidableEq, Repr

def FieldError.message : FieldError → String
  | unterminated => "unterminated quoted field"
  | strayQuote => "unexpected quote inside unquoted field"

inductive Place where
  | atStart
  | bare
  | quoted
  deriving DecidableEq, Repr

def pushChar (c : Char) : List (List Char) → List (List Char)
  | [] => [[c]]
  | f :: fs => (c :: f) :: fs

/-- The rest of the present field, and the fields after it. Text after a closing quote belongs to
the field. -/
def splitFrom : Place → List Char → Except FieldError (List (List Char))
  | .quoted, [] => .error .unterminated
  | .quoted, '"' :: '"' :: cs => (splitFrom .quoted cs).map (pushChar '"')
  | .quoted, '"' :: cs => splitFrom .bare cs
  | .quoted, c :: cs => (splitFrom .quoted cs).map (pushChar c)
  | _, [] => .ok [[]]
  | _, ',' :: cs => (splitFrom .atStart cs).map ([] :: ·)
  | .atStart, '"' :: cs => splitFrom .quoted cs
  | .bare, '"' :: _ => .error .strayQuote
  | _, c :: cs => (splitFrom .bare cs).map (pushChar c)

def splitFields (line : String) : Except FieldError (List String) :=
  (splitFrom .atStart line.toList).map fun fs => fs.map String.ofList

end Daybook.Csv
