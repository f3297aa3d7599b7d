import Daybook.Command.Line
import Daybook.Proofs.Command.Flags
import Mathlib.Data.List.Induction

/-!
Cutting the flags out of a line. Main statement: the tokens that stay, with their new places, are
the tokens of what is left of the line, and no flag is among them.
-/
namespace Daybook

theorem utf8Size_of_isSeparator {c : Char} (h : isSeparator c = true) : c.utf8Size = 1 := by
  simp only [isSeparator, Bool.or_eq_true, beq_iff_eq] at h
  rcases h with (((rfl | rfl) | rfl) | rfl) | rfl <;> rfl

theorem isBlank_of_isSeparator {c : Char} (h : isSeparator c = true) : isBlank c = true := by
  simp only [isSeparator, Bool.or_eq_true, beq_iff_eq] at h
  rcases h with (((rfl | rfl) | rfl) | rfl) | rfl <;> rfl

namespace Draft
variable {d : Draft} {l : Lexeme}

def Faithful (d : Draft) (n : Nat) : Prop := d.body = ((runs 0 d.text).drop n).map Run.lexeme

theorem Faithful.tokens {n : Nat} (h : d.Faithful n) :
    d.body.map Lexeme.token = (tokensOf d.text).drop n := by
  rw [h, ← tokensOf_runs 0, ← List.map_drop, ← List.map_drop]

theorem Faithful.spans {n : Nat} (h : d.Faithful n) :
    d.source.spans = ((runs 0 d.text).drop n).map Run.span := by
  rw [source, h, List.map_map]
  rfl

theorem push_of_ne (h : l.token ≠ .keyword .autoDecline) :
    d.push l = { d with body := d.body ++ [⟨l.token, l.span.shift d.removed⟩] } := by
  rw [push, if_neg h]

theorem cutStart_separator (before after : List Char) {c : Char} (hc : isSeparator c = true)
    (stop : Nat) :
    cutStart (before ++ [c] ++ after) ⟨byteLength (before ++ [c]), stop⟩ = byteLength before := by
  rw [cutStart, splitBytes?_append]
  simp [isBlank_of_isSeparator hc, utf8Size_of_isSeparator hc]

theorem cut_middle (as bs cs : List Char) :
    cut (as ++ bs ++ cs) ⟨byteLength as, byteLength (as ++ bs)⟩ = as ++ cs := by
  have hhead : splitBytes? (byteLength as) (as ++ bs ++ cs) = some (as, bs ++ cs) := by
    rw [List.append_assoc, splitBytes?_append]
  rw [cut, hhead, splitBytes?_append]

/-- A flag goes with the separator before it. -/
theorem push_flag (before w after : List Char) {c : Char} (hc : isSeparator c = true)
    (h : l.token = .keyword .autoDecline) (htext : d.text = before ++ [c] ++ w ++ after)
    (hspan : l.span.shift d.removed =
      ⟨byteLength (before ++ [c]), byteLength (before ++ [c] ++ w)⟩) :
    d.push l = { d with
      text := before ++ after
      removed := d.removed + (byteLength w + 1)
      flagged := true } := by
  have hstart : cutStart d.text ⟨byteLength (before ++ [c]), byteLength (before ++ [c] ++ w)⟩ =
      byteLength before := by
    rw [htext, List.append_assoc (before ++ [c]), cutStart_separator before (w ++ after) hc]
  have hcut : cut d.text ⟨byteLength before, byteLength (before ++ [c] ++ w)⟩ =
      before ++ after := by
    rw [htext, List.append_assoc before]
    exact cut_middle before ([c] ++ w) after
  have hlen : byteLength (before ++ [c] ++ w) - byteLength before = byteLength w + 1 := by
    simp only [byteLength_append, byteLength_cons, byteLength_nil, utf8Size_of_isSeparator hc]
    omega
  rw [push, if_pos h]
  simp only [hspan, hstart, hcut, hlen]

/-- A draft when the runs `gone` of a line are taken, behind those of its verb, and `rest` is to
come. What is left of the line up to here is `before`, with the runs of the verb and `kept` in it;
`after` is as it was in the line. -/
structure Halfway (line : List Char) (verb gone rest kept : List Run) (before after : List Char)
    (d : Draft) : Prop where
  text : d.text = before ++ after
  detached : Detached after
  ahead : runs (byteLength before + d.removed) after = rest
  behind : runs 0 before = verb ++ kept
  erased : withoutFlags line = before ++ dropFlags false after
  body : d.body = kept.map Run.lexeme
  words : kept.map Run.text = (gone.map Run.text).filter (!isFlag ·)
  flagged : d.flagged = gone.any (isFlag ·.text)

namespace Halfway
variable {line before after : List Char} {verb gone rest kept : List Run} {r : Run}

theorem of_verb (hne : verb ≠ []) (hline : runs 0 line = verb ++ rest)
    (hverb : ∀ r ∈ verb, isFlag r.text = false) :
    ∃ before after, Halfway line verb [] rest [] before after ⟨line, 0, false, []⟩ := by
  have hlen : 0 < verb.length := List.length_pos_iff.2 hne
  have hle : verb.length ≤ (runs 0 line).length := by
    rw [hline, List.length_append]
    omega
  obtain ⟨seps, p, after, rfl, hseps, -, hafter, htake, hdrop⟩ := exists_first_phrase hlen 0 hle
  rw [hline, List.take_left] at htake
  rw [hline, List.drop_left] at hdrop
  have hbehind : runs 0 (seps ++ p) = verb := by
    rw [runs_of_separators hseps, htake]
  refine ⟨seps ++ p, after, rfl, hafter, ?_, ?_, ?_, rfl, rfl, rfl⟩
  · rw [← hdrop]
    simp
  · rw [hbehind, List.append_nil]
  · refine dropFlags_append 0 ?_ hafter
    rwa [hbehind]

theorem next (h : Halfway line verb gone (r :: rest) kept before after d) :
    ∃ seps tail, after = seps ++ r.text ++ tail ∧ (∀ c ∈ seps, isSeparator c = true) ∧
      r.text ≠ [] ∧ (∀ c ∈ r.text, isSeparator c = false) ∧ Detached tail ∧
      r.lexeme.span.shift d.removed =
        ⟨byteLength (before ++ seps), byteLength (before ++ seps ++ r.text)⟩ ∧
      runs (byteLength (before ++ seps ++ r.text) + d.removed) tail = rest := by
  obtain ⟨seps, tail, hafter, hseps, hne, hw, htail, hstart, hruns⟩ :=
    exists_of_runs_eq_cons h.ahead
  refine ⟨seps, tail, hafter, hseps, hne, hw, htail, ?_, ?_⟩
  · simp only [Run.lexeme, Run.span, Span.shift, byteLength_append, Span.mk.injEq]
    omega
  · rw [← hruns, byteLength_append, byteLength_append]
    congr 1
    omega

theorem next_flag (h : Halfway line verb gone (r :: rest) kept before after d) :
    ∃ seps c tail, after = seps ++ [c] ++ r.text ++ tail ∧
      (∀ c ∈ seps, isSeparator c = true) ∧ isSeparator c = true ∧
      (∀ c ∈ r.text, isSeparator c = false) ∧ Detached tail ∧
      r.lexeme.span.shift d.removed =
        ⟨byteLength (before ++ seps ++ [c]), byteLength (before ++ seps ++ [c] ++ r.text)⟩ ∧
      runs (byteLength (before ++ seps ++ [c] ++ r.text) + d.removed) tail = rest := by
  obtain ⟨seps, tail, hafter, hseps, hne, hw, htail, hspan, hruns⟩ := h.next
  obtain ⟨seps, c, rfl⟩ := exists_separator_before (hafter ▸ h.detached) hne hw
  rw [← List.append_assoc] at hspan hruns
  exact ⟨seps, c, tail, hafter, fun d hd => hseps d (by simp [hd]), hseps c (by simp), hw, htail,
    hspan, hruns⟩

theorem push_word (h : Halfway line verb gone (r :: rest) kept before after d)
    (hflag : isFlag r.text = false) :
    ∃ kept before after, Halfway line verb (gone ++ [r]) rest kept before after
      (d.push r.lexeme) := by
  obtain ⟨seps, tail, hafter, hseps, hne, hw, htail, hspan, hruns⟩ := h.next
  have htoken : r.lexeme.token ≠ .keyword .autoDecline := by
    intro heq
    rw [isFlag_iff.2 heq] at hflag
    cases hflag
  have hdetached : Detached (seps ++ r.text) := by
    intro c hc
    refine h.detached c ?_
    rw [hafter, List.head?_append, hc]
    rfl
  have hmoved : Lexeme.mk r.lexeme.token
      ⟨byteLength (before ++ seps), byteLength (before ++ seps ++ r.text)⟩ =
      Run.lexeme ⟨byteLength (before ++ seps), r.text⟩ := by
    rw [byteLength_append (before ++ seps)]
    rfl
  rw [push_of_ne htoken, hspan, hmoved]
  refine ⟨kept ++ [⟨byteLength (before ++ seps), r.text⟩], before ++ seps ++ r.text, tail, ?_,
    htail, hruns, ?_, ?_, ?_, ?_, ?_⟩
  · simp only [h.text, hafter, List.append_assoc]
  · rw [List.append_assoc, runs_append hdetached, h.behind, runs_of_separators hseps,
      runs_word hne hw, byteLength_append, Nat.zero_add, List.append_assoc]
  · rw [h.erased, hafter, dropFlags_first_word hseps hw htail hflag]
    simp only [List.append_assoc]
  · simp only [h.body, List.map_append, List.map_singleton]
  · simp [h.words, hflag]
  · simp [h.flagged, hflag]

theorem push_flag (h : Halfway line verb gone (r :: rest) kept before after d)
    (hflag : isFlag r.text = true) :
    ∃ kept before after, Halfway line verb (gone ++ [r]) rest kept before after
      (d.push r.lexeme) := by
  obtain ⟨seps, c, tail, hafter, hseps, hc, hw, htail, hspan, hruns⟩ := h.next_flag
  -- only the last separator goes with the flag, the others stay behind what was there before
  have htext : d.text = before ++ seps ++ [c] ++ r.text ++ tail := by
    simp only [h.text, hafter, List.append_assoc]
  have hdetached : Detached seps := fun d hd => hseps d (List.mem_of_mem_head? hd)
  have hkeep : runs 0 (before ++ seps) = runs 0 before := by
    rw [runs_append hdetached, ← List.append_nil seps, runs_of_separators hseps]
    exact List.append_nil _
  rw [Draft.push_flag (before ++ seps) r.text tail hc (isFlag_iff.1 hflag) htext hspan]
  refine ⟨kept, before ++ seps, tail, rfl, htail, ?_, ?_, ?_, h.body, ?_, ?_⟩
  · rw [← hruns]
    congr 1
    simp only [byteLength_append, byteLength_cons, byteLength_nil, utf8Size_of_isSeparator hc]
    omega
  · rw [hkeep, h.behind]
  · rw [h.erased, hafter, dropFlags_flag hseps hc hw htail hflag, List.append_assoc]
  · simp [h.words, hflag]
  · simp [hflag]

/-- Every draft on the way through a line is halfway. -/
theorem of_ofCreate (hne : verb ≠ []) (hline : runs 0 line = verb ++ (gone ++ rest))
    (hverb : ∀ r ∈ verb, isFlag r.text = false) :
    ∃ kept before after, Halfway line verb gone rest kept before after
      (ofCreate line (gone.map Run.lexeme)) := by
  induction gone using List.reverseRecOn generalizing rest with
  | nil => exact ⟨[], of_verb hne hline hverb⟩
  | append_singleton gone r ih =>
    rw [List.append_assoc] at hline
    obtain ⟨kept, before, after, h⟩ := ih hline
    rw [List.map_append, ofCreate, List.foldl_append]
    cases hflag : isFlag r.text with
    | false => exact h.push_word hflag
    | true => exact h.push_flag hflag

/-- At the end the tokens that stay are those of what is left, which is the line without flags. -/
theorem finished (h : Halfway line verb gone [] kept before after d) :
    d.text = withoutFlags line ∧ d.Faithful verb.length ∧ runs 0 d.text = verb ++ kept := by
  have hseps : ∀ c ∈ after, isSeparator c = true := separators_of_runs_eq_nil h.ahead
  have htext : runs 0 d.text = verb ++ kept := by
    rw [h.text, runs_append h.detached, h.behind, ← List.append_nil after,
      runs_of_separators hseps]
    exact List.append_nil _
  refine ⟨?_, ?_, htext⟩
  · have hsame : dropFlags false (after ++ []) = after ++ dropFlags false [] :=
      dropFlags_separators hseps detached_nil
    rw [List.append_nil] at hsame
    rw [h.text, h.erased, hsame, dropFlags, List.append_nil]
  · rw [Faithful, htext, List.drop_left, h.body]

end Halfway

theorem plain_faithful (line : List Char) (n : Nat) :
    (plain line (((runs 0 line).map Run.lexeme).drop n)).Faithful n := by
  rw [Faithful, plain, List.map_drop]

end Draft

namespace Command
variable {verb : Verb}

theorem exists_runs_of_tokens {line : List Char} {body : List Token}
    (h : ((runs 0 line).map Run.lexeme).map Lexeme.token = verb.tokens ++ body) :
    ∃ vs rest, runs 0 line = vs ++ rest ∧ vs ≠ [] ∧ vs.length = verb.tokens.length ∧
      (∀ r ∈ vs, isFlag r.text = false) ∧ (rest.map Run.lexeme).map Lexeme.token = body := by
  rw [List.map_map, List.map_eq_append_iff] at h
  obtain ⟨vs, rest, hruns, hvs, hrest⟩ := h
  have hlen : vs.length = verb.tokens.length := by rw [← hvs, List.length_map]
  have hfree : Token.keyword .autoDecline ∉ verb.tokens := by cases verb <;> decide
  refine ⟨vs, rest, hruns, ?_, hlen, fun r hr => ?_, by rw [List.map_map, hrest]⟩
  · rintro rfl
    revert hlen
    cases verb <;> decide
  · rw [Bool.eq_false_iff]
    intro hflag
    refine hfree ?_
    rw [← hvs, ← isFlag_iff.1 hflag]
    exact List.mem_map_of_mem (f := Lexeme.token ∘ Run.lexeme) hr

theorem parse_eq_ofDraft {line : String} {rest : List Token}
    (h : (lex line).map Lexeme.token = verb.tokens ++ rest) :
    parse line = ofDraft verb (if verb = .createEvent then
        Draft.ofCreate line.toList ((lex line).drop verb.tokens.length)
      else Draft.plain line.toList ((lex line).drop verb.tokens.length)) := by
  simp only [parse, h, Verb.of?_append]

/-- A create command is read off the line without its flags. -/
theorem exists_draft_of_create {line : String} {body : List Token}
    (h : (lex line).map Lexeme.token = Verb.createEvent.tokens ++ body) :
    ∃ d, parse line = ofDraft .createEvent d ∧ d.Faithful Verb.createEvent.tokens.length ∧
      d.text = withoutFlags line.toList ∧
      tokensOf d.text = Verb.createEvent.tokens ++ body.filter (· != .keyword .autoDecline) ∧
      d.flagged = decide (.keyword .autoDecline ∈ body) := by
  obtain ⟨vs, rest, hruns, hne, hlen, hfree, hrest⟩ := exists_runs_of_tokens h
  have hdrop : (lex line).drop Verb.createEvent.tokens.length = rest.map Run.lexeme := by
    rw [lex, ← List.map_drop, hruns, ← hlen, List.drop_left]
  have hline : runs 0 line.toList = vs ++ (rest ++ []) := by rw [List.append_nil, hruns]
  obtain ⟨kept, before, after, hhalf⟩ := Draft.Halfway.of_ofCreate hne hline hfree
  obtain ⟨htext, hfaithful, hkept⟩ := hhalf.finished
  refine ⟨_, ?_, hlen ▸ hfaithful, htext, ?_, ?_⟩
  · rw [parse_eq_ofDraft h, if_pos rfl, hdrop]
  · have hverb : (vs.map Run.text).map Token.ofWord = Verb.createEvent.tokens := by
      rw [lex, hruns, List.map_append, List.map_append, ← hrest] at h
      have hleft := List.append_cancel_right h
      rwa [List.map_map] at hleft ⊢
    rw [tokensOf, words, hkept, List.map_append, List.map_append, hverb, hhalf.words, ← hrest,
      List.map_map]
    congr 1
    rw [List.filter_map, List.filter_map]
    simp only [List.map_map]
    rfl
  · rw [hhalf.flagged, ← hrest, List.map_map, Bool.eq_iff_iff]
    simp [isFlag_iff, Run.lexeme]

/-- A command is read off a draft that holds the tokens of its own text. -/
theorem exists_draft {line : String} {c : Command} (h : parse line = .ok c) :
    ∃ verb d, ofDraft verb d = .ok c ∧ d.Faithful verb.tokens.length ∧
      (verb = .createEvent → ∀ l ∈ d.body, l.token ≠ .keyword .autoDecline) := by
  obtain ⟨verb, hverb⟩ : ∃ verb, Verb.of? ((lex line).map Lexeme.token) = some verb := by
    cases hverb : Verb.of? ((lex line).map Lexeme.token) with
    | none => simp [parse, hverb] at h
    | some verb => exact ⟨verb, rfl⟩
  rw [Verb.of?] at hverb
  have hfound := List.find?_some hverb
  obtain ⟨body, hbody⟩ := List.isPrefixOf_iff_prefix.1 hfound
  by_cases hcreate : verb = .createEvent
  · subst hcreate
    obtain ⟨d, hparse, hfaithful, -, htokens, -⟩ := exists_draft_of_create hbody.symm
    refine ⟨_, d, hparse ▸ h, hfaithful, fun _ l hl hflag => ?_⟩
    have hmem : l.token ∈ d.body.map Lexeme.token := List.mem_map_of_mem hl
    rw [hfaithful.tokens, htokens, List.drop_left, hflag] at hmem
    simp at hmem
  · rw [parse_eq_ofDraft hbody.symm, if_neg hcreate] at h
    exact ⟨verb, _, h, Draft.plain_faithful _ _, fun hc => absurd hc hcreate⟩

/-- A line without flags, to which one may be added after a blank, gives back its own draft. -/
theorem parse_of_tokens {text : List Char} {body : List Token} (declines : Bool)
    (htokens : tokensOf text = verb.tokens ++ body)
    (hflags : verb = .createEvent → .keyword .autoDecline ∉ body)
    (hdeclines : declines = true → verb = .createEvent) :
    ∃ d, parse (String.ofList (text ++
        if declines then ' ' :: Keyword.autoDecline.text.toList else [])) = ofDraft verb d ∧
      d.text = text ∧ d.flagged = declines ∧ d.Faithful verb.tokens.length := by
  generalize htail : (if declines then ' ' :: Keyword.autoDecline.text.toList else []) = tail
  have htail' : Detached tail ∧ tokensOf tail = (if declines then [.keyword .autoDecline] else []) ∧
      dropFlags false tail = [] := by
    subst htail
    cases declines with
    | false => exact ⟨detached_nil, rfl, rfl⟩
    | true => exact ⟨detached_cons rfl, by decide, by decide⟩
  obtain ⟨hdetached, hadded, hdropped⟩ := htail'
  have hline : (lex (String.ofList (text ++ tail))).map Lexeme.token =
      verb.tokens ++ (body ++ if declines then [.keyword .autoDecline] else []) := by
    rw [lex, String.toList_ofList, tokensOf_runs, tokensOf, words_append hdetached, List.map_append,
      ← List.append_assoc, ← htokens, ← hadded]
    rfl
  by_cases hcreate : verb = .createEvent
  · subst hcreate
    have hfree : .keyword .autoDecline ∉ tokensOf text := by
      rw [htokens]
      simpa using ⟨by decide, hflags rfl⟩
    obtain ⟨d, hparse, hfaithful, htext, -, hflagged⟩ := exists_draft_of_create hline
    rw [String.toList_ofList, withoutFlags_append hfree hdetached, hdropped,
      List.append_nil] at htext
    refine ⟨d, hparse, htext, ?_, hfaithful⟩
    rw [hflagged]
    cases declines <;> simp [hflags rfl]
  · obtain rfl : declines = false := by
      cases declines with
      | false => rfl
      | true => exact absurd (hdeclines rfl) hcreate
    obtain rfl : tail = [] := htail.symm
    rw [List.append_nil] at hline ⊢
    refine ⟨Draft.plain text ((lex (String.ofList text)).drop verb.tokens.length), ?_, rfl, rfl, ?_⟩
    · rw [parse_eq_ofDraft hline, if_neg hcreate, String.toList_ofList]
    · rw [lex, String.toList_ofList]
      exact Draft.plain_faithful _ _

end Command
end Daybook
