import Daybook.Proofs.Command.ReadBack

/-!
Canonical lines. Main statement: a command that is read off any line is read again, the same, off
its canonical line.
-/
namespace Daybook.Command
open Outline

theorem tokensOf_verb (verb : Verb) : tokensOf verb.text.toList = verb.tokens := by
  cases verb <;> decide

theorem clauses_eq (c : Command) : c.clauses = c.bare.clauses ++ flagWords c.declines := by
  have hnone : flagWords false = [] := rfl
  cases c <;> simp [clauses, bare, declines, hnone]

theorem intercalate_blank (t : List Char) (ts : List (List Char)) :
    [' '].intercalate (t :: ts) = t ++ ts.flatMap (' ' :: ·) := by
  induction ts generalizing t with
  | nil => simp
  | cons u ts ih =>
    rw [List.intercalate_cons_cons, ih, List.flatMap_cons]
    simp

theorem toList_line (c : Command) :
    c.line.toList = c.verb.text.toList ++ c.chunks.flatMap (' ' :: ·) ++
      if c.declines then ' ' :: Keyword.autoDecline.text.toList else [] := by
  have hflag : ((flagWords c.declines).map String.toList).flatMap (' ' :: ·) =
      if c.declines then ' ' :: Keyword.autoDecline.text.toList else [] := by
    cases c.declines <;> rfl
  rw [line, String.toList_intercalate, List.map_cons, clauses_eq, List.map_append, ← hflag,
    List.append_assoc, ← List.flatMap_append]
  exact intercalate_blank _ _

theorem verb_of_declines (c : Command) (h : c.declines = true) : c.verb = .createEvent := by
  cases c <;> first | rfl | cases h

/-- A command that is read off a line is read again, the same, off its canonical line. -/
theorem parse_line_of_parse {line : String} {c : Command} (h : parse line = .ok c) :
    parse c.line = .ok c := by
  obtain ⟨verb, d, hd, hfaithful, hflags⟩ := exists_draft h
  simp only [ofDraft, bind_eq_ok_iff, mapError_eq_ok_iff] at hd
  obtain ⟨o, hread, hc⟩ := hd
  have hshape := read_eq_ok_iff.1 hread
  obtain ⟨_, hlaid, -⟩ := laid_parts hshape
  have hback := readsBack_of_shape hshape (worded_of_laid hfaithful hlaid) hc fun hcreate hmem => by
    obtain ⟨l, hl, htoken⟩ := List.mem_map.1 hmem
    exact hflags hcreate l hl htoken
  have htokens : tokensOf (verb.text.toList ++ c.chunks.flatMap (' ' :: ·)) =
      verb.tokens ++ c.chunks.flatMap tokensOf := by
    rw [tokensOf_joined, tokensOf_verb]
  obtain ⟨d', hparse, htext, hflagged, hfaithful'⟩ := parse_of_tokens c.declines htokens
    hback.unflagged fun hdeclines => hback.verb_eq ▸ verb_of_declines c hdeclines
  have hbody : d'.body.map Lexeme.token = c.chunks.flatMap tokensOf := by
    rw [hfaithful'.tokens, htext, htokens, List.drop_left]
  -- the outline read off the canonical line is the one that the command came from
  obtain ⟨_, hlaid', -⟩ := laid_parts hback.shape
  have hverb : (words verb.text.toList).length = verb.tokens.length + 0 := by
    rw [← length_tokensOf, tokensOf_verb, Nat.add_zero]
  have hholds := holds_of_laid hfaithful' hlaid' hback.fits htext hverb
  rw [← String.ofList_toList (s := c.line), toList_line, hback.verb_eq, hparse, ofDraft, hbody,
    read_eq_ok_iff.2 hback.shape, hflagged]
  exact hback.reads _ hholds

def oddLine : String :=
  "CREATE Event  from me --autodecline ON 2024-5-6 repeats um until 2024-05-31"

def oddCommand : Command :=
  .createAllDay "from me" ⟨739011, by decide, by decide⟩
    (some ⟨⟨0x41#7⟩, .before (⟨63852796800, by decide, by decide⟩ : Instant)⟩) true

theorem parse_line_oddCommand :
    parse oddLine = .ok oddCommand ∧
      oddCommand.line =
        "create event from me on 2024-05-06 repeats MU until 2024-05-31 --autodecline" ∧
      parse oddCommand.line = .ok oddCommand := by
  have hparse : parse oddLine = .ok oddCommand := by decide +kernel
  exact ⟨hparse, by decide +kernel, parse_line_of_parse hparse⟩

end Daybook.Command
