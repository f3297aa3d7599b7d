import Daybook.Proofs.Command.Scanning

/-!
How a line is cut into tokens. Main statement: the spans of the tokens are those of the longest texts
without separators, in order, and a token is the keyword that its text spells; behind a separator the
tokens are those of the text there, moved.
-/
namespace Daybook
variable {cs as bs : List Char} {r : Run} {pos : Nat}

theorem runs_behind_separator {c : Char} (hc : isSeparator c = true) (as bs : List Char) (pos : Nat) :
    runs pos (as ++ [c] ++ bs) = runs pos as ++ runs (pos + byteLength (as ++ [c])) bs := by
  have hone : ∀ d ∈ [c], isSeparator d = true := by simpa using hc
  rw [List.append_assoc, List.singleton_append, runs_append (detached_cons hc),
    ← List.singleton_append, runs_of_separators hone, byteLength_append, Nat.add_assoc]

theorem mem_runs_iff : r ∈ runs pos cs ↔
    ∃ before after, Alone before r.text after ∧ cs = before ++ r.text ++ after ∧
      r.start = pos + byteLength before := by
  refine ⟨exists_of_mem_runs, ?_⟩
  rintro ⟨before, after, halone, rfl, hstart⟩
  have hword : ∀ n, n = r.start → r ∈ runs n (r.text ++ after) := by
    rintro n rfl
    rw [runs_append halone.detached, runs_word halone.ne_nil halone.unbroken]
    exact List.mem_append_left _ List.mem_cons_self
  rcases before.eq_nil_or_concat with rfl | ⟨front, c, rfl⟩
  · exact hword pos hstart.symm
  · rw [List.concat_eq_append] at halone hstart ⊢
    have hc : isSeparator c = true := halone.closed c List.getLast?_concat
    rw [List.append_assoc, runs_behind_separator hc]
    exact List.mem_append_right _ (hword _ hstart.symm)

def Run.Parted (pos : Nat) (cs : List Char) (q r : Run) : Prop :=
  ∃ before gap after, cs = before ++ q.text ++ gap ++ r.text ++ after ∧
    q.start = pos + byteLength before ∧ r.start = pos + byteLength (before ++ q.text ++ gap) ∧
    ∃ c ∈ gap, isSeparator c = true

theorem pairwise_runs (pos : Nat) (cs : List Char) :
    (runs pos cs).Pairwise (Run.Parted pos cs) := by
  generalize hrs : runs pos cs = rs
  induction rs generalizing cs pos with
  | nil => exact .nil
  | cons q rs ih =>
    obtain ⟨seps, rest, rfl, -, -, -, hrest, hstart, htail⟩ := exists_of_runs_eq_cons hrs
    refine .cons (fun r hr => ?_) ((ih _ _ htail).imp ?_)
    · obtain ⟨gap, after, halone, rfl, hr⟩ := exists_of_mem_runs (htail ▸ hr)
      obtain ⟨front, c, rfl⟩ := exists_separator_before hrest halone.ne_nil halone.unbroken
      refine ⟨seps, front ++ [c], after, by simp, hstart, ?_, c, by simp,
        halone.closed c List.getLast?_concat⟩
      simp only [hr, byteLength_append, Nat.add_assoc]
    · rintro r s ⟨before, gap, after, rfl, hr, hs, hgap⟩
      refine ⟨seps ++ q.text ++ before, gap, after, by simp, ?_, ?_, hgap⟩
      · simp only [hr, byteLength_append, Nat.add_assoc]
      · simp only [hs, byteLength_append, Nat.add_assoc]

def Span.IsMaximal (cs : List Char) (span : Span) : Prop :=
  ∃ before w after, Alone before w after ∧ cs = before ++ w ++ after ∧
    span = ⟨byteLength before, byteLength before + byteLength w⟩

def Span.Parted (cs : List Char) (s t : Span) : Prop :=
  s.stop < t.start ∧ ∃ gap, sliceBytes? cs ⟨s.stop, t.start⟩ = some gap ∧
    ∃ c ∈ gap, isSeparator c = true

theorem isMaximal_iff {span : Span} :
    span.IsMaximal cs ↔ ∃ r ∈ runs 0 cs, r.span = span := by
  constructor
  · rintro ⟨before, w, after, halone, hcs, rfl⟩
    refine ⟨⟨byteLength before, w⟩, ?_, rfl⟩
    exact mem_runs_iff.2 ⟨before, after, halone, hcs, (Nat.zero_add _).symm⟩
  · rintro ⟨r, hr, rfl⟩
    obtain ⟨before, after, halone, hcs, hstart⟩ := mem_runs_iff.1 hr
    exact ⟨before, r.text, after, halone, hcs, by rw [Run.span, hstart, Nat.zero_add]⟩

theorem Run.Parted.span {q : Run} (h : Run.Parted 0 cs q r) : Span.Parted cs q.span r.span := by
  obtain ⟨before, gap, after, rfl, hq, hr, c, hc, hsep⟩ := h
  rw [Nat.zero_add] at hq hr
  have hstop : q.span.stop = byteLength (before ++ q.text) := by
    rw [Run.span, hq, byteLength_append]
  have hstart : r.span.start = byteLength (before ++ q.text) + byteLength gap := by
    rw [Run.span, hr, byteLength_append]
  have hgap : 0 < byteLength gap := by
    obtain ⟨front, back, rfl⟩ := List.append_of_mem hc
    have := c.utf8Size_pos
    rw [byteLength_append, byteLength_cons]
    omega
  refine ⟨by omega, gap, ?_, c, hc, hsep⟩
  rw [hstop, hstart, List.append_assoc (before ++ q.text ++ gap), sliceBytes?_middle]

/-- The tokens of a line are its words, each as the keyword that it spells or as a word. -/
structure CutInto (line : String) (lexemes : List Lexeme) : Prop where
  parted : (lexemes.map Lexeme.span).Pairwise (Span.Parted line.toList)
  spans : ∀ span, span ∈ lexemes.map Lexeme.span ↔ span.IsMaximal line.toList
  keyword : ∀ l ∈ lexemes, ∀ k, l.token = .keyword k ↔
    ∃ w, sliceBytes? line.toList l.span = some w ∧ w.map Keyword.fold = k.text.toList
  word : ∀ l ∈ lexemes, l.token = .word ↔
    ∃ w, sliceBytes? line.toList l.span = some w ∧ ∀ k : Keyword, w.map Keyword.fold ≠ k.text.toList

theorem cutInto_lex (line : String) : CutInto line (lex line) := by
  have hspans : (lex line).map Lexeme.span = (runs 0 line.toList).map Run.span := by
    rw [lex, List.map_map]
    rfl
  constructor
  · rw [hspans, List.pairwise_map]
    exact (pairwise_runs 0 line.toList).imp Run.Parted.span
  · intro span
    rw [hspans, List.mem_map, isMaximal_iff]
  · intro l hl k
    obtain ⟨r, hr, rfl⟩ := List.mem_map.1 hl
    have hslice : sliceBytes? line.toList r.lexeme.span = some r.text := slice_of_mem_runs hr
    simp only [hslice, Option.some.injEq, exists_eq_left', ← Token.ofWord_eq_keyword_iff]
    rfl
  · intro l hl
    obtain ⟨r, hr, rfl⟩ := List.mem_map.1 hl
    have hslice : sliceBytes? line.toList r.lexeme.span = some r.text := slice_of_mem_runs hr
    simp only [hslice, Option.some.injEq, exists_eq_left', ← Token.ofWord_eq_word_iff]
    rfl

def Lexeme.later (n : Nat) (l : Lexeme) : Lexeme := ⟨l.token, l.span.start + n, l.span.stop + n⟩

theorem Run.lexeme_later (n : Nat) (r : Run) : (r.later n).lexeme = r.lexeme.later n := by
  simp only [lexeme, later, span, Lexeme.later, Nat.add_right_comm]

theorem byteLength_eq (cs : List Char) : byteLength cs = (String.ofList cs).utf8ByteSize := by
  induction cs with
  | nil => rw [String.ofList_nil, String.utf8ByteSize_empty, byteLength_nil]
  | cons c cs ih =>
    rw [byteLength_cons, ih, ← List.singleton_append, String.ofList_append,
      String.utf8ByteSize_append, ← String.singleton_eq_ofList, String.utf8ByteSize_singleton]

theorem lex_behind_separator {s : Char} (hs : isSeparator s = true) (a b : String) :
    lex (a ++ String.singleton s ++ b) =
      lex a ++ (lex b).map (Lexeme.later (a ++ String.singleton s).utf8ByteSize) := by
  have hsize : byteLength (a.toList ++ [s]) = (a ++ String.singleton s).utf8ByteSize := by
    rw [byteLength_eq, String.ofList_append, String.ofList_toList, String.singleton_eq_ofList]
  rw [lex, String.toList_append, String.toList_append, String.toList_singleton,
    runs_behind_separator hs, hsize, runs_add, List.map_append, lex, lex, List.map_map,
    List.map_map]
  exact congrArg _ (List.map_congr_left fun r _ => r.lexeme_later _)

/-- No line is refused, and its tokens are its words; behind a separator they start anew. -/
theorem tokenize_cuts_words {next : List Char → Option Match} (h : PicksLongest next) :
    (∀ line, tokenize next line = .ok (lex line) ∧ CutInto line (lex line)) ∧
      ∀ (a b : String) (s : Char), isSeparator s = true →
        lex (a ++ String.singleton s ++ b) =
          lex a ++ (lex b).map (Lexeme.later (a ++ String.singleton s).utf8ByteSize) := by
  refine ⟨fun line => ⟨h.tokenize_eq line, cutInto_lex line⟩, fun a b s hs => ?_⟩
  exact lex_behind_separator hs a b

def lookalikes : String := "onCE On\teventS \u00E9vent\x0C\u017FHOW"

theorem tokenize_cuts_words_lookalikes :
    PicksLongest Match.longest? ∧ isSeparator '\x0C' = true ∧
      tokenize Match.longest? lookalikes = .ok [⟨.word, 0, 4⟩, ⟨.keyword .on_, 5, 7⟩,
        ⟨.keyword .events, 8, 14⟩, ⟨.word, 15, 21⟩, ⟨.keyword .show_, 22, 27⟩] ∧
      CutInto lookalikes (lex lookalikes) ∧
      lex ("onCE On" ++ String.singleton '\x0C' ++ "\u017FHOW") =
        [⟨.word, 0, 4⟩, ⟨.keyword .on_, 5, 7⟩, ⟨.keyword .show_, 8, 13⟩] := by
  have hcuts := tokenize_cuts_words picksLongest_longest?
  obtain ⟨htokens, hcut⟩ := hcuts.1 lookalikes
  refine ⟨picksLongest_longest?, by decide, htokens.trans (congrArg _ (by decide)), hcut, ?_⟩
  rw [hcuts.2 "onCE On" "\u017FHOW" '\x0C' (by decide)]
  decide

end Daybook
