import Daybook.Command.Values
import Daybook.Text.Blank

/-!
Commands from lines. In a create command every decline flag is cut out of the line first, with
one blank before it, and the tokens after it move up.
-/
namespace Daybook

def Span.shift (s : Span) (n : Nat) : Span := ⟨s.start - n, s.stop - n⟩

/-- A line while its flags are cut: what is left of it, how many bytes are gone, whether a flag
was seen, and the tokens that stay, with their places in what is left. -/
structure Draft where
  text : List Char
  removed : Nat
  flagged : Bool
  body : List Lexeme
  deriving DecidableEq, Repr

namespace Draft

def cutStart (text : List Char) (flag : Span) : Nat :=
  match splitBytes? flag.start text with
  | some (head, _) => if head.getLast?.any isBlank then flag.start - 1 else flag.start
  | none => flag.start

def cut (text : List Char) (span : Span) : List Char :=
  match splitBytes? span.start text, splitBytes? span.stop text with
  | some (before, _), some (_, after) => before ++ after
  | _, _ => text

def push (d : Draft) (l : Lexeme) : Draft :=
  let span := l.span.shift d.removed
  if l.token = .keyword .autoDecline then
    let start := cutStart d.text span
    { d with
      text := cut d.text ⟨start, span.stop⟩
      removed := d.removed + (span.stop - start)
      flagged := true }
  else { d with body := d.body ++ [⟨l.token, span⟩] }

def ofCreate (line : List Char) (body : List Lexeme) : Draft :=
  body.foldl push ⟨line, 0, false, []⟩

def plain (line : List Char) (body : List Lexeme) : Draft := ⟨line, 0, false, body⟩

def source (d : Draft) : Source := ⟨d.text, d.body.map Lexeme.span⟩

end Draft

namespace Command

def ofDraft (verb : Verb) (d : Draft) : Except ParseError Command := do
  let outline ← (Outline.read verb (d.body.map Lexeme.token)).mapError (.misfit verb)
  ofOutline d.source.slice d.flagged outline

def parse (line : String) : Except ParseError Command :=
  let lexemes := lex line
  match Verb.of? (lexemes.map Lexeme.token) with
  | none => .error (.unrecognized line)
  | some verb =>
    let body := lexemes.drop verb.tokens.length
    let draft := if verb = .createEvent then Draft.ofCreate line.toList body
      else Draft.plain line.toList body
    ofDraft verb draft

end Command
end Daybook
