import Daybook.Proofs.Command.Erasure

/-!
A flag appended to a line. Main statement: behind a create command it changes nothing but whether
the command declines, whatever the line was and whether or not it is one at all.
-/
namespace Daybook
variable {as bs : List Char}

theorem takeWhile_append_detached (hb : Detached bs) :
    (as ++ bs).takeWhile (!isSeparator ·) = as.takeWhile (!isSeparator ·) := by
  induction as with
  | nil => exact takeWhile_of_detached hb
  | cons a as ih => cases ha : isSeparator a <;> simp [ha, ih]

/-- Flags on both sides of a separator are dropped apart. -/
theorem dropFlags_append_detached (inside : Bool) (hb : Detached bs) :
    dropFlags inside (as ++ bs) = dropFlags inside as ++ dropFlags false bs := by
  induction as generalizing inside with
  | nil =>
    cases inside with
    | false => rfl
    | true => exact dropFlags_of_detached hb
  | cons a as ih =>
    rw [List.cons_append, dropFlags, dropFlags, takeWhile_append_detached hb]
    split
    · split
      · exact ih true
      · exact congrArg (a :: ·) (ih false)
    · cases inside with
      | false => exact congrArg (a :: ·) (ih false)
      | true => exact ih true

def appendix : String := " --autodecline"

theorem detached_appendix : Detached appendix.toList := detached_cons rfl

theorem withoutFlags_appendix (line : List Char) :
    withoutFlags (line ++ appendix.toList) = withoutFlags line := by
  have hdropped : dropFlags false appendix.toList = [] := by decide
  rw [withoutFlags, dropFlags_append_detached false detached_appendix, hdropped,
    List.append_nil, withoutFlags]

theorem tokensOf_appendix (line : List Char) :
    tokensOf (line ++ appendix.toList) = tokensOf line ++ [.keyword .autoDecline] := by
  have hflag : tokensOf appendix.toList = [.keyword .autoDecline] := by decide
  rw [tokensOf, words_append detached_appendix, List.map_append, ← tokensOf, ← tokensOf, hflag]

theorem Verb.exists_of_of?_eq_some {verb : Verb} {ts : List Token} (h : of? ts = some verb) :
    ∃ body, ts = verb.tokens ++ body := by
  rw [of?] at h
  have hfound := List.find?_some h
  obtain ⟨body, hbody⟩ := List.isPrefixOf_iff_prefix.1 hfound
  exact ⟨body, hbody.symm⟩

namespace Command
open Outline
variable {line : String} {verb : Verb} {d d' : Draft}

theorem ofDraft_congr {n : Nat} (hd : d.Faithful n) (hd' : d'.Faithful n)
    (htext : d'.text = d.text) (hflagged : d'.flagged = d.flagged) :
    ofDraft verb d' = ofDraft verb d := by
  have hbody : d'.body = d.body := by rw [hd, hd', htext]
  simp only [ofDraft, Draft.source, htext, hflagged, hbody]

theorem declining_declining (c : Command) : c.declining.declining = c.declining := by
  cases c <;> rfl

theorem ofDraft_flagged_true (verb : Verb) (d : Draft) :
    ofDraft verb { d with flagged := true } = declining <$> ofDraft verb d := by
  cases hflagged : d.flagged with
  | false =>
    have hsame : { d with flagged := false } = d := by rw [← hflagged]
    rw [ofDraft_flagged (d := { d with flagged := true }) rfl, hsame]
  | true =>
    have hsame : { d with flagged := true } = d := by rw [← hflagged]
    have htwice : declining ∘ declining = declining := funext declining_declining
    rw [hsame, ofDraft_flagged hflagged, ← LawfulFunctor.comp_map, htwice]

/-- No verb but that of the create commands has a use for the flag. -/
theorem ofDraft_flagged_of_ne (hverb : verb ≠ .createEvent) :
    ofDraft verb { d with flagged := true } = ofDraft verb d := by
  simp only [ofDraft]
  cases hread : Outline.read verb (d.body.map Lexeme.token) with
  | error cause => rfl
  | ok o =>
    cases read_eq_ok_iff.1 hread with
    | createTimed | createAllDay => exact absurd rfl hverb
    | _ => rfl

def flaggedLine (line : String) : String :=
  if Verb.of? ((lex line).map Lexeme.token) = some .createEvent then line ++ appendix else line

/-- The flag behind a line only makes a create command decline. Errors stay as they are, and so do
the commands of other lines. -/
theorem parse_flaggedLine (line : String) : parse (flaggedLine line) = declining <$> parse line := by
  cases hof : Verb.of? ((lex line).map Lexeme.token) with
  | none =>
    have herror : parse line = .error (.unrecognized line) := by simp only [parse, hof]
    rw [flaggedLine, hof, if_neg (by simp), herror]
    rfl
  | some verb =>
    obtain ⟨body, hbody⟩ := Verb.exists_of_of?_eq_some hof
    by_cases hcreate : verb = .createEvent
    · subst hcreate
      have hflagged : (lex (line ++ appendix)).map Lexeme.token =
          Verb.createEvent.tokens ++ (body ++ [.keyword .autoDecline]) := by
        rw [lex, tokensOf_runs] at hbody ⊢
        rw [String.toList_append, tokensOf_appendix, hbody, List.append_assoc]
      obtain ⟨d, hparse, hd, htext, -⟩ := exists_draft_of_create hbody
      obtain ⟨d', hparse', hd', htext', -, hflag'⟩ := exists_draft_of_create hflagged
      rw [String.toList_append, withoutFlags_appendix, ← htext] at htext'
      have hsame : ofDraft .createEvent d' = ofDraft .createEvent { d with flagged := true } :=
        ofDraft_congr hd hd' htext' (by simp [hflag'])
      rw [flaggedLine, if_pos hof, hparse', hsame, ofDraft_flagged_true, hparse]
    · have hne : Verb.of? ((lex line).map Lexeme.token) ≠ some .createEvent := by
        simpa [hof] using hcreate
      rw [flaggedLine, if_neg hne, parse_eq_ofDraft hbody, if_neg hcreate, ← ofDraft_flagged_true,
        ofDraft_flagged_of_ne hcreate]

end Command
end Daybook
