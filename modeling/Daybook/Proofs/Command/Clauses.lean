import Daybook.Proofs.Command.Appended
import Daybook.Proofs.Command.Layout

/-!
Clauses of a line by its words. Main statements: a line is read by the outline of its words, every
clause has as its text a phrase with the words of the clause; and where a phrase stands in the line,
that is the text of its words.
-/
namespace Daybook
open Outline
variable {verb : Verb} {o : Outline} {line : String} {n : Nat}

def Verb.kept (verb : Verb) (line : List Char) : List (List Char) :=
  if verb = .createEvent then (words line).filter (!isFlag ·) else words line

def Verb.body (verb : Verb) (line : List Char) : List (List Char) :=
  (verb.kept line).drop verb.tokens.length

theorem map_ofWord_body (verb : Verb) (line : List Char) :
    (verb.body line).map Token.ofWord =
      (if verb = .createEvent then (tokensOf line).filter (· != .keyword .autoDecline)
        else tokensOf line).drop verb.tokens.length := by
  rw [Verb.body, List.map_drop, Verb.kept, tokensOf]
  split
  · rw [List.filter_map]
    rfl
  · rfl

structure Outlined (line : List Char) (verb : Verb) (o : Outline) : Prop where
  verb_eq : Verb.of? (tokensOf line) = some verb
  read_eq : Outline.read verb ((verb.body line).map Token.ofWord) = .ok o

theorem Outlined.unique {line : List Char} {verb' : Verb} {o' : Outline} (h : Outlined line verb o)
    (h' : Outlined line verb' o') : verb = verb' ∧ o = o' := by
  have hverb : verb = verb' := Option.some.inj (h.verb_eq.symm.trans h'.verb_eq)
  subst hverb
  exact ⟨rfl, Except.ok.inj (h.read_eq.symm.trans h'.read_eq)⟩

def Verb.left (verb : Verb) (line : List Char) : List Char :=
  if verb = .createEvent then withoutFlags line else line

theorem isFlag_head {line w : List Char} (h : Verb.of? (tokensOf line) = some verb)
    (hw : w ∈ (words line).head?) : isFlag w = false := by
  obtain ⟨body, hbody⟩ := Verb.exists_of_of?_eq_some h
  have hsome : verb.tokens ≠ [] := by cases verb <;> decide
  have hfree : Token.keyword .autoDecline ∉ verb.tokens := by cases verb <;> decide
  have hhead : (tokensOf line).head? = some (Token.ofWord w) := by
    rw [tokensOf, List.head?_map, hw]
    rfl
  rw [hbody, List.head?_append_of_ne_nil _ hsome] at hhead
  rw [Bool.eq_false_iff, ne_eq, isFlag_iff]
  intro hflag
  exact hfree (hflag ▸ List.mem_of_mem_head? hhead)

theorem words_left {line : List Char} (h : Verb.of? (tokensOf line) = some verb) :
    words (verb.left line) = verb.kept line := by
  unfold Verb.left Verb.kept
  split
  · exact words_withoutFlags fun _ => isFlag_head h
  · rfl

/-- A line with a verb is read off what is left of it. -/
theorem exists_draft_of_verb (h : Verb.of? (tokensOf line.toList) = some verb) :
    ∃ d : Draft, Command.parse line = Command.ofDraft verb d ∧ d.Faithful verb.tokens.length ∧
      d.text = verb.left line.toList ∧
      d.flagged = (decide (verb = .createEvent) &&
        decide (.keyword .autoDecline ∈ tokensOf line.toList)) := by
  have htokens : (lex line).map Lexeme.token = tokensOf line.toList := by rw [lex, tokensOf_runs]
  obtain ⟨body, hbody⟩ := Verb.exists_of_of?_eq_some h
  by_cases hcreate : verb = .createEvent
  · subst hcreate
    obtain ⟨d, hparse, hfaithful, htext, -, hflagged⟩ :=
      Command.exists_draft_of_create (htokens.trans hbody)
    have hfree : Token.keyword .autoDecline ∉ Verb.createEvent.tokens := by decide
    exact ⟨d, hparse, hfaithful, htext, by simp [hflagged, hbody, hfree]⟩
  · have hparse := Command.parse_eq_ofDraft (htokens.trans hbody)
    rw [if_neg hcreate] at hparse
    exact ⟨_, hparse, Draft.plain_faithful _ _, (if_neg hcreate).symm,
      by simp [hcreate, Draft.plain]⟩

theorem body_tokens {d : Draft} (h : Verb.of? (tokensOf line.toList) = some verb)
    (hd : d.Faithful verb.tokens.length) (htext : d.text = verb.left line.toList) :
    d.body.map Lexeme.token = (verb.body line.toList).map Token.ofWord := by
  rw [hd.tokens, htext, tokensOf, words_left h, ← List.map_drop, Verb.body]

theorem Outlined.exists_draft (h : Outlined line.toList verb o) :
    ∃ d : Draft, Command.parse line = Command.ofOutline d.source.slice d.flagged o ∧
      d.Faithful verb.tokens.length ∧ d.text = verb.left line.toList ∧
      d.flagged = (decide (verb = .createEvent) &&
        decide (.keyword .autoDecline ∈ tokensOf line.toList)) := by
  obtain ⟨d, hparse, hd, htext, hflagged⟩ := exists_draft_of_verb h.verb_eq
  refine ⟨d, ?_, hd, htext, hflagged⟩
  rw [hparse, Command.ofDraft, body_tokens h.verb_eq hd htext, h.read_eq]
  rfl

theorem Command.verb_of_ofOutline {b : List Token} {text : Span → String} {flagged : Bool}
    {c : Command} (hshape : Shape b verb o) (h : ofOutline text flagged o = .ok c) :
    c.verb = verb := by
  cases hshape with
  | createTimed =>
    simp only [ofOutline, bind_eq_ok_iff] at h
    obtain ⟨_, -, _, -, _, -, hpure⟩ := h
    cases hpure
    rfl
  | createAllDay | editSingle | printRange =>
    simp only [ofOutline, bind_eq_ok_iff] at h
    obtain ⟨_, -, _, -, hpure⟩ := h
    cases hpure
    rfl
  | editFrom | printOn | showStatus =>
    simp only [ofOutline, bind_eq_ok_iff] at h
    obtain ⟨_, -, hpure⟩ := h
    cases hpure
    rfl
  | editNamed | exportCal | exportGoogle =>
    cases h
    rfl

/-- A line has an outline, or fails for want of a verb or of a shape of its verb. -/
theorem parse_cases (line : String) :
    (∃ verb o, Outlined line.toList verb o) ∨
      Command.parse line = .error (.unrecognized line) ∨
      ∃ verb cause, Command.parse line = .error (.misfit verb cause) := by
  have htokens : (lex line).map Lexeme.token = tokensOf line.toList := by rw [lex, tokensOf_runs]
  cases hverb : Verb.of? (tokensOf line.toList) with
  | none => exact .inr (.inl (by simp only [Command.parse, htokens, hverb]))
  | some verb =>
    obtain ⟨d, hparse, hd, htext, -⟩ := exists_draft_of_verb hverb
    rw [Command.ofDraft, body_tokens hverb hd htext] at hparse
    cases hread : Outline.read verb ((verb.body line.toList).map Token.ofWord) with
    | error cause => exact .inr (.inr ⟨verb, cause, by rw [hparse, hread]; rfl⟩)
    | ok o => exact .inl ⟨verb, o, hverb, hread⟩

theorem exists_outlined {c : Command} (h : Command.parse line = .ok c) :
    ∃ verb o, Outlined line.toList verb o := by
  obtain houtlined | hbad | ⟨verb, cause, hbad⟩ := parse_cases line
  · exact houtlined
  · cases hbad.symm.trans h
  · cases hbad.symm.trans h

/-- The text of a clause is a phrase with the words of the clause. -/
theorem Outlined.exists_slice {d : Draft} {s : Span} (h : Outlined line.toList verb o)
    (hd : d.Faithful verb.tokens.length) (htext : d.text = verb.left line.toList)
    (hs : s ∈ spans o.parts) :
    ∃ p, d.source.slice s = String.ofList p ∧ Phrase p ∧
      words p = (verb.body line.toList).extract s.start s.stop ∧
      (words p).length = s.stop - s.start := by
  obtain ⟨j, hlaid, -⟩ := laid_parts (read_eq_ok_iff.1 h.read_eq)
  obtain ⟨-, hlt, hle⟩ := span_of_laid hlaid hs
  rw [List.length_map, Verb.body, List.length_drop] at hle
  have hwords := words_left h.verb_eq
  rw [← htext] at hwords
  rw [Verb.body, ← hwords]
  exact hd.exists_slice hlt (by rw [hwords]; omega)

theorem Outlined.slice_word {d : Draft} {s : Span} {w : List Char}
    (h : Outlined line.toList verb o) (hd : d.Faithful verb.tokens.length)
    (htext : d.text = verb.left line.toList) (hs : s ∈ spans o.parts) (hone : s.stop = s.start + 1)
    (hw : (verb.body line.toList)[s.start]? = some w) : d.source.slice s = String.ofList w := by
  obtain ⟨p, hslice, hp, hwords, -⟩ := h.exists_slice hd htext hs
  have hsingle : (verb.body line.toList).extract s.start s.stop = [w] := by
    rw [List.extract_eq_take_drop, hone, Nat.add_sub_cancel_left, drop_eq_cons_iff.2 ⟨hw, rfl⟩]
    rfl
  rw [hslice, hp.eq_of_words (hwords.trans hsingle)]

structure Stands (verb : Verb) (line : List Char) (n : Nat) (p : List Char) : Prop where
  phrase : Phrase p
  unflagged : verb = .createEvent → .keyword .autoDecline ∉ tokensOf p
  place : ∃ before c after, line = before ++ c :: p ++ after ∧ isSeparator c = true ∧
    Detached after ∧ (verb.kept before).length = verb.tokens.length + n

/-- What is left of a line holds the phrases that stand in the line. -/
theorem Stands.left {line p : List Char} (h : Stands verb line n p)
    (hverb : Verb.of? (tokensOf line) = some verb) :
    ∃ before c after, verb.left line = before ++ c :: p ++ after ∧ isSeparator c = true ∧
      Detached after ∧ (words before).length = verb.tokens.length + n := by
  obtain ⟨before, c, after, rfl, hc, hafter, hcount⟩ := h.place
  by_cases hcreate : verb = .createEvent
  · have hflag := h.unflagged hcreate
    have hbehind : Detached (c :: p ++ after) := detached_cons hc
    have hone : ∀ e ∈ [c], isSeparator e = true := fun e he => List.mem_singleton.1 he ▸ hc
    have hfree : .keyword .autoDecline ∉ tokensOf (c :: p) := by
      rwa [tokensOf, ← List.singleton_append, words_of_separators hone]
    have hleft : verb.left (before ++ c :: p ++ after) =
        dropFlags false before ++ c :: p ++ dropFlags false after := by
      rw [Verb.left, if_pos hcreate, withoutFlags, List.append_assoc,
        dropFlags_append_detached false hbehind, dropFlags_append 0
          (fun _ => isFlag_of_mem_runs hfree) hafter, List.append_assoc]
    have hbefore : words (dropFlags false before) = verb.kept before := by
      rw [Verb.kept, if_pos hcreate]
      refine words_withoutFlags fun w hw => isFlag_head hverb ?_
      rw [List.append_assoc, words_append hbehind, List.head?_append, hw]
      rfl
    exact ⟨dropFlags false before, c, dropFlags false after, hleft, hc,
      (words_dropFlags hafter).1, hbefore ▸ hcount⟩
  · rw [Verb.kept, if_neg hcreate] at hcount
    exact ⟨before, c, after, if_neg hcreate, hc, hafter, hcount⟩

/-- Where a phrase stands in a line, it is the text of its words. -/
theorem Stands.slice {p : List Char} {d : Draft} {s : Span} (h : Stands verb line.toList s.start p)
    (hverb : Verb.of? (tokensOf line.toList) = some verb) (hd : d.Faithful verb.tokens.length)
    (htext : d.text = verb.left line.toList) (hlen : (words p).length = s.stop - s.start)
    (hlt : s.start < s.stop) : d.source.slice s = String.ofList p := by
  obtain ⟨before, c, after, hleft, hc, hafter, hcount⟩ := h.left hverb
  have hslice := hd.slice_phrase (htext.trans hleft) hc h.phrase hafter hcount
  rwa [hlen, Nat.add_sub_cancel' (Nat.le_of_lt hlt)] at hslice

end Daybook
