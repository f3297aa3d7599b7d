import Daybook.Command.Token

/-! Verbs: the keywords that open a command. -/
namespace Daybook

inductive Verb where
  | createEvent | editEvents | editEvent | printOn | printFrom | exportCal | exportGoogle
  | showStatus
  deriving DecidableEq, Repr

namespace Verb

def all : List Verb :=
  [createEvent, editEvents, editEvent, printOn, printFrom, exportCal, exportGoogle, showStatus]

def keywords : Verb → List Keyword
  | createEvent => [.create, .event]
  | editEvents => [.edit, .events]
  | editEvent => [.edit, .event]
  | printOn => [.print, .events, .on_]
  | printFrom => [.print, .events, .from_]
  | exportCal => [.export_, .cal]
  | exportGoogle => [.export_, .googleCsv]
  | showStatus => [.show_, .status, .on_]

def tokens (v : Verb) : List Token := v.keywords.map .keyword

def text (v : Verb) : String := " ".intercalate (v.keywords.map Keyword.text)

def of? (line : List Token) : Option Verb := all.find? fun v => v.tokens.isPrefixOf line

theorem of?_append (v : Verb) (rest : List Token) : of? (v.tokens ++ rest) = some v := by
  cases v <;> rfl

end Verb
end Daybook
