import Daybook.Proofs.Command.ReadBack

/-!
Create commands with flags in them. Main statement: such a line is read like the line without its
flags, but declines; and on the way each cut fits the line, whatever the tokens around it.
-/
namespace Daybook

namespace Draft
variable {line before after : List Char} {verb gone rest kept : List Run} {d : Draft}

/-- The flags among the runs `gone` are cut well out of a draft, and a flag that comes next in
`rest` will be. -/
structure CutsWell (d : Draft) (gone rest : List Run) : Prop where
  covers : d.body.map (fun l => (l.token, sliceBytes? d.text l.span)) =
    (gone.filter (!isFlag ·.text)).map fun r => (Token.ofWord r.text, some r.text)
  room : ∀ r ∈ rest, d.removed ≤ r.span.start ∧ d.removed ≤ r.span.stop
  cuts : ∀ r ∈ rest.head?, isFlag r.text = true → ∃ before c after,
    isSeparator c = true ∧ d.text = before ++ [c] ++ r.text ++ after ∧
    r.span.shift d.removed =
      ⟨byteLength (before ++ [c]), byteLength (before ++ [c] ++ r.text)⟩ ∧
    cutStart d.text (r.span.shift d.removed) = byteLength before ∧
    (d.push r.lexeme).text = before ++ after

theorem Halfway.runs_text (h : Halfway line verb gone rest kept before after d) :
    runs 0 d.text = verb ++ kept ++ runs (byteLength before) after := by
  rw [h.text, runs_append h.detached, h.behind, Nat.zero_add]

theorem Halfway.covers (h : Halfway line verb gone rest kept before after d) :
    d.body.map (fun l => (l.token, sliceBytes? d.text l.span)) =
      (gone.filter (!isFlag ·.text)).map fun r => (Token.ofWord r.text, some r.text) := by
  have hkept : d.body.map (fun l => (l.token, sliceBytes? d.text l.span)) =
      kept.map fun r => (Token.ofWord r.text, some r.text) := by
    rw [h.body, List.map_map]
    refine List.map_congr_left fun r hr => ?_
    have hmem : r ∈ runs 0 d.text := by
      rw [h.runs_text]
      simp [hr]
    exact congrArg (Token.ofWord r.text, ·) (slice_of_mem_runs hmem)
  have hwords := congrArg (List.map fun w => (Token.ofWord w, some w)) h.words
  rw [List.filter_map, List.map_map, List.map_map] at hwords
  rw [hkept]
  exact hwords

theorem Halfway.cuts {r : Run} (h : Halfway line verb gone (r :: rest) kept before after d)
    (hflag : isFlag r.text = true) : ∃ before c after,
      isSeparator c = true ∧ d.text = before ++ [c] ++ r.text ++ after ∧
      r.span.shift d.removed =
        ⟨byteLength (before ++ [c]), byteLength (before ++ [c] ++ r.text)⟩ ∧
      cutStart d.text (r.span.shift d.removed) = byteLength before ∧
      (d.push r.lexeme).text = before ++ after := by
  obtain ⟨seps, c, tail, hafter, -, hc, -, -, hspan, -⟩ := h.next_flag
  have htext : d.text = before ++ seps ++ [c] ++ r.text ++ tail := by
    simp only [h.text, hafter, List.append_assoc]
  refine ⟨before ++ seps, c, tail, hc, htext, hspan, ?_, ?_⟩
  · have hstart := cutStart_separator (before ++ seps) (r.text ++ tail) hc
    rw [← List.append_assoc, ← htext] at hstart
    exact (congrArg _ hspan).trans (hstart _)
  · rw [Draft.push_flag (before ++ seps) r.text tail hc (isFlag_iff.1 hflag) htext hspan]

theorem Halfway.cutsWell (h : Halfway line verb gone rest kept before after d) :
    d.CutsWell gone rest where
  covers := h.covers
  room r hr := by
    rw [← h.ahead] at hr
    obtain ⟨before', after', -, -, hstart⟩ := exists_of_mem_runs hr
    simp only [Run.span]
    omega
  cuts r hr hflag := by
    cases rest with
    | nil => cases hr
    | cons q rest =>
      cases hr
      exact h.cuts hflag

end Draft

namespace Command
open Outline
variable {verb : Verb} {c : Command}

def declining : Command → Command
  | createTimed name start stop rule _ => createTimed name start stop rule true
  | createAllDay name date rule _ => createAllDay name date rule true
  | c => c

/-- The flag changes nothing about a command but whether it declines. -/
theorem ofOutline_flagged (text : Span → String) (o : Outline) :
    ofOutline text true o = declining <$> ofOutline text false o := by
  cases o with
  | editMany property name start value =>
    cases start with
    | none => rfl
    | some start => simp only [ofOutline, map_bind]; rfl
  | _ => simp only [ofOutline, map_bind]; rfl

theorem ofDraft_flagged {d : Draft} (h : d.flagged = true) :
    ofDraft verb d = declining <$> ofDraft verb { d with flagged := false } := by
  simp only [ofDraft, map_bind, h]
  refine congrArg _ (funext fun o => ?_)
  exact ofOutline_flagged _ o

theorem declines_of_ofDraft {d : Draft} (h : d.flagged = true)
    (hc : ofDraft .createEvent d = .ok c) : c.declines = true := by
  simp only [ofDraft, bind_eq_ok_iff, mapError_eq_ok_iff] at hc
  obtain ⟨o, hread, hc⟩ := hc
  cases read_eq_ok_iff.1 hread with
  | createTimed _ _ =>
    simp only [ofOutline, bind_eq_ok_iff] at hc
    obtain ⟨_, _, _, _, _, _, hc⟩ := hc
    cases hc
    exact h
  | createAllDay _ _ _ _ _ =>
    simp only [ofOutline, bind_eq_ok_iff] at hc
    obtain ⟨_, _, _, _, hc⟩ := hc
    cases hc
    exact h

/-- Flags, wherever they stand behind the verb of a create command, only make it decline: without
them, and without the separator before each, the line gives the same command or the same error. -/
theorem parse_flags_erased {line : String} {body : List Token}
    (htokens : (lex line).map Lexeme.token = Verb.createEvent.tokens ++ body)
    (hflag : .keyword .autoDecline ∈ body) :
    parse line = declining <$> parse (String.ofList (withoutFlags line.toList)) ∧
      (∀ c, parse line = .ok c → c.declines = true) ∧
      ∀ gone rest, (runs 0 line.toList).drop Verb.createEvent.tokens.length = gone ++ rest →
        (Draft.ofCreate line.toList (gone.map Run.lexeme)).CutsWell gone rest := by
  obtain ⟨d, hparse, hfaithful, htext, hleft, hflagged⟩ := exists_draft_of_create htokens
  rw [decide_eq_true hflag] at hflagged
  have hleft' : (lex (String.ofList d.text)).map Lexeme.token =
      Verb.createEvent.tokens ++ body.filter (· != .keyword .autoDecline) := by
    rw [lex, String.toList_ofList, tokensOf_runs, hleft]
  obtain ⟨d', hparse', hfaithful', htext', -, hflagged'⟩ := exists_draft_of_create hleft'
  have hfree : .keyword .autoDecline ∉ tokensOf d.text := by
    rw [hleft, List.mem_append]
    simpa using (by decide : .keyword .autoDecline ∉ Verb.createEvent.tokens)
  rw [String.toList_ofList, withoutFlags_eq_self hfree] at htext'
  have hsame : ofDraft .createEvent { d with flagged := false } = ofDraft .createEvent d' := by
    have hbody : d.body = d'.body := by
      rw [hfaithful, hfaithful', htext']
    have hunflagged : d'.flagged = false := by
      rw [hflagged']
      simp
    simp only [ofDraft, Draft.source, hbody, htext', hunflagged]
  refine ⟨?_, ?_, ?_⟩
  · rw [hparse, ← htext, hparse', ofDraft_flagged hflagged, hsame]
  · intro c hc
    rw [hparse] at hc
    exact declines_of_ofDraft hflagged hc
  · intro gone rest hsplit
    obtain ⟨vs, body', hruns, hne, hlen, hverb, -⟩ := exists_runs_of_tokens htokens
    rw [hruns, ← hlen, List.drop_left] at hsplit
    rw [hsplit] at hruns
    obtain ⟨kept, before, after, h⟩ := Draft.Halfway.of_ofCreate hne hruns hverb
    exact h.cutsWell

def manyFlags : String :=
  "create event --autodecline Caf\u00E9  --AUTODECLINE\tx on 2024-05-06 repeats --autodecline M " ++
    "for 2 times"

def manyFlagsErased : String := "create event Caf\u00E9 \tx on 2024-05-06 repeats M for 2 times"

theorem parse_flags_erased_manyFlags :
    String.ofList (withoutFlags manyFlags.toList) = manyFlagsErased ∧
      parse manyFlags = declining <$> parse manyFlagsErased ∧
      (parse manyFlagsErased).isOk = true ∧
      (∀ c, parse manyFlags = .ok c → c.declines = true) ∧
      ∀ gone rest, (runs 0 manyFlags.toList).drop 2 = gone ++ rest →
        (Draft.ofCreate manyFlags.toList (gone.map Run.lexeme)).CutsWell gone rest := by
  have herased : String.ofList (withoutFlags manyFlags.toList) = manyFlagsErased := by
    decide +kernel
  have htokens : (lex manyFlags).map Lexeme.token = Verb.createEvent.tokens ++
      [.keyword .autoDecline, .word, .keyword .autoDecline, .word, .keyword .on_, .word,
        .keyword .repeats, .keyword .autoDecline, .word, .keyword .for_, .word,
        .keyword .times] := by decide +kernel
  obtain ⟨hparse, hdeclines, hcuts⟩ := parse_flags_erased htokens (by decide)
  rw [herased] at hparse
  exact ⟨herased, hparse, by decide +kernel, hdeclines, hcuts⟩

end Command
end Daybook
