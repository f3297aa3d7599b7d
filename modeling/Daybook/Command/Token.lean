/-! Tokens of a command line: the keywords of the grammar, and words. -/
namespace Daybook

inductive Keyword where
  | create | edit | print | export_ | show_
  | event | events | status | cal | googleCsv
  | on_ | from_ | to_ | with_ | repeats | for_ | times | until_ | autoDecline
  deriving DecidableEq, Repr

namespace Keyword

def all : List Keyword :=
  [create, edit, print, export_, show_, event, events, status, cal, googleCsv, on_, from_,
    to_, with_, repeats, for_, times, until_, autoDecline]

def text : Keyword → String
  | create => "create" | edit => "edit" | print => "print" | export_ => "export"
  | show_ => "show" | event => "event" | events => "events" | status => "status" | cal => "cal"
  | googleCsv => "googlecsv" | on_ => "on" | from_ => "from" | to_ => "to"
  | with_ => "with" | repeats => "repeats" | for_ => "for" | times => "times"
  | until_ => "until" | autoDecline => "--autodecline"

theorem mem_all (k : Keyword) : k ∈ all := by cases k <;> decide

/-- Lower case for letters that fold to an ASCII letter; the long s and the Kelvin sign do too. -/
def fold (c : Char) : Char :=
  if c = '\u017F' then 's' else if c = '\u212A' then 'k' else c.toLower

def ofWord? (word : List Char) : Option Keyword :=
  all.find? fun k => k.text.toList == word.map fold

@[simp] theorem ofWord?_text (k : Keyword) : ofWord? k.text.toList = some k := by
  cases k <;> decide

theorem text_injective {k l : Keyword} (h : k.text = l.text) : k = l := by
  have := ofWord?_text k
  rw [h, ofWord?_text] at this
  exact (Option.some.inj this).symm

/-- A word spells a keyword exactly when the two agree with case ignored. -/
theorem ofWord?_eq_some_iff {word : List Char} {k : Keyword} :
    ofWord? word = some k ↔ word.map fold = k.text.toList := by
  constructor
  · intro h
    have := List.find?_some h
    simp only [beq_iff_eq] at this
    exact this.symm
  · intro h
    cases hk : ofWord? word with
    | none =>
      have := List.find?_eq_none.1 hk k (mem_all k)
      simp [h] at this
    | some l =>
      have : l.text.toList = word.map fold := by simpa using List.find?_some hk
      exact congrArg some (text_injective (String.toList_inj.1 (this.trans h)))

end Keyword

inductive Token where
  | keyword (k : Keyword)
  | word
  deriving DecidableEq, Repr

namespace Token

def ofWord (word : List Char) : Token :=
  match Keyword.ofWord? word with
  | some k => .keyword k
  | none => .word

def shown : Token → String
  | keyword k => "'" ++ k.text ++ "'"
  | word => "word"

end Token
end Daybook
