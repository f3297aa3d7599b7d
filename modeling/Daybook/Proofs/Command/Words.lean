import Daybook.Command.Lexeme

/-!
Words of a text, and phrases: texts from the start of a word to the end of one. Main statements:
some tokens in a row always have a phrase as their text, and where a phrase stands, cutting at its
tokens gives it back.
-/
namespace Daybook
variable {as bs cs : List Char}

def Detached (cs : List Char) : Prop := ∀ c, cs.head? = some c → isSeparator c = true

theorem detached_nil : Detached [] := by
  intro c h
  cases h

theorem detached_cons {c : Char} (h : isSeparator c = true) : Detached (c :: cs) := by
  intro d hd
  cases hd
  exact h

theorem runs_of_separators (h : ∀ c ∈ as, isSeparator c = true) (pos : Nat) :
    runs pos (as ++ bs) = runs (pos + byteLength as) bs := by
  induction as generalizing pos with
  | nil => rfl
  | cons a as ih =>
    rw [List.cons_append, runs, if_pos (h a List.mem_cons_self),
      ih (fun c hc => h c (List.mem_cons_of_mem a hc)), byteLength_cons, Nat.add_assoc]

theorem runs_of_not_isSeparator {c : Char} (h : isSeparator c = false) (cs : List Char)
    (pos : Nat) :
    ∃ w rs, runs pos (c :: cs) = ⟨pos, c :: w⟩ :: rs := by
  rw [runs, h]
  cases cs.head?.map isSeparator with
  | none => exact ⟨[], _, rfl⟩
  | some b =>
    cases b with
    | true => exact ⟨[], _, rfl⟩
    | false =>
      cases runs (pos + c.utf8Size) cs with
      | nil => exact ⟨[], _, rfl⟩
      | cons r rs => exact ⟨r.text, rs, rfl⟩

theorem runs_append (hb : Detached bs) (pos : Nat) :
    runs pos (as ++ bs) = runs pos as ++ runs (pos + byteLength as) bs := by
  induction as generalizing pos with
  | nil => rfl
  | cons a as ih =>
    rw [List.cons_append, runs, runs, ih, byteLength_cons, ← Nat.add_assoc]
    cases ha : isSeparator a with
    | true => rfl
    | false =>
      cases as with
      | nil =>
        cases bs with
        | nil => rfl
        | cons b bs =>
          have hsep : isSeparator b = true := hb b rfl
          simp [runs, hsep]
      | cons c as =>
        cases hc : isSeparator c with
        | true => simp [hc]
        | false =>
          obtain ⟨w, rs, hrs⟩ := runs_of_not_isSeparator hc as (pos + a.utf8Size)
          simp [hc, hrs]

theorem runs_word {w : List Char} (hne : w ≠ []) (h : ∀ c ∈ w, isSeparator c = false) (pos : Nat) :
    runs pos w = [⟨pos, w⟩] := by
  induction w generalizing pos with
  | nil => exact absurd rfl hne
  | cons c w ih =>
    rw [runs, h c List.mem_cons_self]
    cases w with
    | nil => rfl
    | cons d w =>
      rw [ih (by simp) fun e he => h e (List.mem_cons_of_mem c he)]
      simp [h d (by simp)]

theorem first_word (cs : List Char) :
    (∀ c ∈ cs, isSeparator c = true) ∨
      ∃ seps w rest, cs = seps ++ w ++ rest ∧ (∀ c ∈ seps, isSeparator c = true) ∧ w ≠ [] ∧
        (∀ c ∈ w, isSeparator c = false) ∧ Detached rest := by
  induction cs with
  | nil => exact .inl (by simp)
  | cons c cs ih =>
    cases hc : isSeparator c with
    | true =>
      cases ih with
      | inl ih =>
        refine .inl fun d hd => ?_
        cases hd with
        | head => exact hc
        | tail _ hd => exact ih d hd
      | inr ih =>
        obtain ⟨seps, w, rest, rfl, hseps, hw⟩ := ih
        refine .inr ⟨c :: seps, w, rest, rfl, fun d hd => ?_, hw⟩
        cases hd with
        | head => exact hc
        | tail _ hd => exact hseps d hd
    | false =>
      refine .inr ⟨[], c :: cs.takeWhile (!isSeparator ·), cs.dropWhile (!isSeparator ·), ?_, ?_,
        by simp, fun d hd => ?_, fun d hd => ?_⟩
      · simp
      · simp
      · cases hd with
        | head => exact hc
        | tail _ hd => simpa using List.all_eq_true.1 List.all_takeWhile d hd
      · have := List.head?_dropWhile_not (!isSeparator ·) cs
        rw [hd] at this
        simpa using this

theorem exists_separator_before {seps w rest : List Char} (h : Detached (seps ++ w ++ rest))
    (hne : w ≠ []) (hw : ∀ c ∈ w, isSeparator c = false) : ∃ front c, seps = front ++ [c] := by
  rcases seps.eq_nil_or_concat with rfl | ⟨front, c, hfront⟩
  · obtain ⟨d, ds, rfl⟩ := List.exists_cons_of_ne_nil hne
    have hd : isSeparator d = true := h d rfl
    rw [hw d List.mem_cons_self] at hd
    cases hd
  · exact ⟨front, c, by rw [hfront, List.concat_eq_append]⟩

theorem runs_first_word {seps w rest : List Char} (hseps : ∀ c ∈ seps, isSeparator c = true)
    (hne : w ≠ []) (hw : ∀ c ∈ w, isSeparator c = false) (hrest : Detached rest) (pos : Nat) :
    runs pos (seps ++ w ++ rest) = ⟨pos + byteLength seps, w⟩ ::
      runs (pos + byteLength seps + byteLength w) rest := by
  rw [List.append_assoc, runs_of_separators hseps, runs_append hrest, runs_word hne hw]
  rfl

/-- Where a text has a first run, it splits around the word that the run stands for. -/
theorem exists_of_runs_eq_cons {r : Run} {rs : List Run} {pos : Nat} (h : runs pos cs = r :: rs) :
    ∃ seps rest, cs = seps ++ r.text ++ rest ∧ (∀ c ∈ seps, isSeparator c = true) ∧ r.text ≠ [] ∧
      (∀ c ∈ r.text, isSeparator c = false) ∧ Detached rest ∧ r.start = pos + byteLength seps ∧
      runs (pos + byteLength seps + byteLength r.text) rest = rs := by
  rcases first_word cs with hseps | ⟨seps, w, rest, rfl, hseps, hne, hw, hrest⟩
  · rw [← List.append_nil cs, runs_of_separators hseps] at h
    cases h
  · rw [runs_first_word hseps hne hw hrest] at h
    obtain ⟨rfl, htail⟩ := List.cons_eq_cons.1 h
    exact ⟨seps, rest, rfl, hseps, hne, hw, hrest, rfl, htail⟩

theorem separators_of_runs_eq_nil {pos : Nat} (h : runs pos cs = []) :
    ∀ c ∈ cs, isSeparator c = true := by
  rcases first_word cs with hseps | ⟨seps, w, rest, rfl, hseps, hne, hw, hrest⟩
  · exact hseps
  · rw [runs_first_word hseps hne hw hrest] at h
    cases h

structure Alone (before w after : List Char) : Prop where
  ne_nil : w ≠ []
  unbroken : ∀ c ∈ w, isSeparator c = false
  closed : ∀ c, before.getLast? = some c → isSeparator c = true
  detached : Detached after

theorem exists_of_mem_runs {r : Run} {pos : Nat} (h : r ∈ runs pos cs) :
    ∃ before after, Alone before r.text after ∧ cs = before ++ r.text ++ after ∧
      r.start = pos + byteLength before := by
  generalize hrs : runs pos cs = rs at h
  induction rs generalizing cs pos with
  | nil => cases h
  | cons q rs ih =>
    obtain ⟨seps, rest, rfl, hseps, hne, hq, hrest, hstart, htail⟩ := exists_of_runs_eq_cons hrs
    cases h with
    | head =>
      exact ⟨seps, rest, ⟨hne, hq, fun c hc => hseps c (List.mem_of_getLast? hc), hrest⟩, rfl, hstart⟩
    | tail _ h =>
      obtain ⟨before, after, halone, rfl, hbefore⟩ := ih htail h
      obtain ⟨front, c, rfl⟩ := exists_separator_before hrest halone.ne_nil halone.unbroken
      refine ⟨seps ++ q.text ++ (front ++ [c]), after, ⟨halone.ne_nil, halone.unbroken, ?_,
        halone.detached⟩, by simp, ?_⟩
      · intro d hd
        refine halone.closed d ?_
        rw [← hd, ← List.append_assoc, List.getLast?_concat, List.getLast?_concat]
      · simp only [byteLength_append, hbefore, Nat.add_assoc]

/-- Cutting at the span of a run gives the text of the run. -/
theorem slice_of_mem_runs {r : Run} (h : r ∈ runs 0 cs) : sliceBytes? cs r.span = some r.text := by
  obtain ⟨before, after, -, hcs, hstart⟩ := exists_of_mem_runs h
  have hspan : r.span = ⟨byteLength before, byteLength before + byteLength r.text⟩ := by
    rw [Run.span, hstart, Nat.zero_add]
  rw [hcs, hspan, sliceBytes?_middle]

structure Phrase (cs : List Char) : Prop where
  opens : ∃ c ds, cs = c :: ds ∧ isSeparator c = false
  closes : ∃ ds c, cs = ds ++ [c] ∧ isSeparator c = false

theorem Phrase.ne_nil (h : Phrase cs) : cs ≠ [] := by
  obtain ⟨c, ds, rfl, -⟩ := h.opens
  exact List.cons_ne_nil c ds

theorem phrase_of_word (hne : cs ≠ []) (h : ∀ c ∈ cs, isSeparator c = false) : Phrase cs := by
  constructor
  · obtain ⟨c, ds, rfl⟩ := List.exists_cons_of_ne_nil hne
    exact ⟨c, ds, rfl, h c List.mem_cons_self⟩
  · refine ⟨cs.dropLast, cs.getLast hne, (List.dropLast_concat_getLast hne).symm, ?_⟩
    exact h _ (List.getLast_mem hne)

theorem Phrase.append (ha : Phrase as) (hc : Phrase cs) : Phrase (as ++ bs ++ cs) := by
  constructor
  · obtain ⟨c, ds, rfl, hsep⟩ := ha.opens
    exact ⟨c, ds ++ bs ++ cs, by simp, hsep⟩
  · obtain ⟨ds, c, rfl, hsep⟩ := hc.closes
    exact ⟨as ++ bs ++ ds, c, by simp, hsep⟩

theorem Phrase.head_runs (h : Phrase cs) (pos : Nat) :
    ∃ r rs, runs pos cs = r :: rs ∧ r.span.start = pos := by
  obtain ⟨c, ds, rfl, hsep⟩ := h.opens
  obtain ⟨w, rs, hruns⟩ := runs_of_not_isSeparator hsep ds pos
  exact ⟨_, rs, hruns, rfl⟩

theorem Phrase.last_runs (h : Phrase cs) (pos : Nat) :
    ∃ rs r, runs pos cs = rs ++ [r] ∧ r.span.stop = pos + byteLength cs := by
  obtain ⟨ds, c, rfl, hsep⟩ := h.closes
  clear h
  induction ds generalizing pos with
  | nil =>
    rw [List.nil_append, runs_word (by simp) (by simp [hsep])]
    exact ⟨[], _, rfl, rfl⟩
  | cons d ds ih =>
    obtain ⟨rs, r, hruns, hstop⟩ := ih (pos + d.utf8Size)
    rw [List.cons_append, runs, hruns, byteLength_cons, ← Nat.add_assoc, ← hstop]
    cases hd : isSeparator d with
    | true => exact ⟨rs, r, rfl, rfl⟩
    | false =>
      cases hds : ds ++ [c] with
      | nil => simp at hds
      | cons e es =>
        cases he : isSeparator e with
        | true => exact ⟨⟨pos, [d]⟩ :: rs, r, by simp [he], rfl⟩
        | false =>
          obtain ⟨w, ts, hfirst⟩ := runs_of_not_isSeparator he es (pos + d.utf8Size)
          rw [hds, hfirst] at hruns
          cases rs with
          | nil =>
            obtain ⟨rfl, rfl⟩ : ⟨pos + d.utf8Size, e :: w⟩ = r ∧ ts = [] := by simpa using hruns
            refine ⟨[], ⟨pos, d :: e :: w⟩, by simp [he], ?_⟩
            simp [Run.span, Nat.add_assoc]
          | cons q qs => exact ⟨⟨pos, d :: q.text⟩ :: qs, r, by simp [he], rfl⟩

def words (cs : List Char) : List (List Char) := (runs 0 cs).map Run.text

def Run.later (n : Nat) (r : Run) : Run := ⟨r.start + n, r.text⟩

theorem runs_add (pos n : Nat) (cs : List Char) :
    runs (pos + n) cs = (runs pos cs).map (Run.later n) := by
  induction cs generalizing pos with
  | nil => rfl
  | cons c cs ih =>
    rw [runs, runs, Nat.add_right_comm, ih]
    cases isSeparator c with
    | true => rfl
    | false =>
      cases cs.head?.map isSeparator with
      | none => rfl
      | some b =>
        cases b with
        | true => rfl
        | false => cases runs (pos + c.utf8Size) cs <;> rfl

theorem map_text_runs (pos : Nat) : (runs pos cs).map Run.text = words cs := by
  rw [← Nat.zero_add pos, runs_add, List.map_map]
  rfl

theorem length_runs (cs : List Char) (pos : Nat) : (runs pos cs).length = (words cs).length := by
  rw [← map_text_runs pos, List.length_map]

theorem words_append (hb : Detached bs) : words (as ++ bs) = words as ++ words bs := by
  rw [words, runs_append hb, List.map_append, map_text_runs, map_text_runs]

theorem words_of_separators (h : ∀ c ∈ as, isSeparator c = true) :
    words (as ++ bs) = words bs := by
  rw [words, runs_of_separators h, map_text_runs]

theorem words_word {w : List Char} (hne : w ≠ []) (h : ∀ c ∈ w, isSeparator c = false) :
    words w = [w] := by
  rw [words, runs_word hne h]
  rfl

theorem words_eq_nil (h : ∀ c ∈ as, isSeparator c = true) : words as = [] := by
  rw [← List.append_nil as, words_of_separators h]
  rfl

theorem words_first_word {seps w rest : List Char} (hseps : ∀ c ∈ seps, isSeparator c = true)
    (hne : w ≠ []) (hw : ∀ c ∈ w, isSeparator c = false) (hrest : Detached rest) :
    words (seps ++ w ++ rest) = w :: words rest := by
  rw [List.append_assoc, words_of_separators hseps, words_append hrest, words_word hne hw]
  rfl

theorem Phrase.eq_of_words {w : List Char} (h : Phrase cs) (hw : words cs = [w]) : cs = w := by
  rcases first_word cs with hseps | ⟨seps, v, rest, rfl, hseps, hne, hv, hrest⟩
  · rw [words_eq_nil hseps] at hw
    cases hw
  · obtain ⟨c, ds, hopens, hc⟩ := h.opens
    obtain ⟨es, d, hcloses, hd⟩ := h.closes
    rw [words_first_word hseps hne hv hrest, List.cons.injEq] at hw
    obtain ⟨rfl, hnone⟩ := hw
    -- separators could only stand at an end
    have hfront : seps = [] := by
      cases seps with
      | nil => rfl
      | cons e seps =>
        have he : e = c := (List.cons.inj hopens).1
        rw [← he, hseps e List.mem_cons_self] at hc
        cases hc
    have hback : rest = [] := by
      rcases rest.eq_nil_or_concat with rfl | ⟨front, e, rfl⟩
      · rfl
      · have hlast : e = d := by
          rw [List.concat_eq_append, ← List.append_assoc] at hcloses
          exact (List.append_inj' hcloses rfl).2 |> List.singleton_inj.1
        have he : isSeparator e = true := by
          refine separators_of_runs_eq_nil (List.map_eq_nil_iff.1 hnone) e ?_
          simp
        rw [← hlast, he] at hd
        cases hd
    rw [hfront, hback, List.nil_append, List.append_nil]

theorem Token.ofWord_eq_keyword_iff {w : List Char} {k : Keyword} :
    Token.ofWord w = .keyword k ↔ w.map Keyword.fold = k.text.toList := by
  rw [← Keyword.ofWord?_eq_some_iff, Token.ofWord]
  cases Keyword.ofWord? w <;> simp

theorem Token.ofWord_eq_word_iff {w : List Char} :
    Token.ofWord w = .word ↔ ∀ k : Keyword, w.map Keyword.fold ≠ k.text.toList := by
  simp only [ne_eq, ← Keyword.ofWord?_eq_some_iff, Token.ofWord]
  cases Keyword.ofWord? w <;> simp

def tokensOf (cs : List Char) : List Token := (words cs).map Token.ofWord

theorem tokensOf_runs (pos : Nat) :
    ((runs pos cs).map Run.lexeme).map Lexeme.token = tokensOf cs := by
  rw [tokensOf, ← map_text_runs pos, List.map_map, List.map_map]
  rfl

theorem length_tokensOf : (tokensOf cs).length = (words cs).length := List.length_map _

theorem Keyword.text_ne_nil (k : Keyword) : k.text.toList ≠ [] := by
  cases k <;> decide

theorem Keyword.text_unbroken (k : Keyword) {c : Char} (h : c ∈ k.text.toList) :
    isSeparator c = false := by
  have hall : k.text.toList.all (!isSeparator ·) = true := by
    cases k <;> decide
  simpa using List.all_eq_true.1 hall c h

theorem Keyword.tokensOf_text (k : Keyword) : tokensOf k.text.toList = [.keyword k] := by
  rw [tokensOf, words_word k.text_ne_nil fun _ => k.text_unbroken, List.map_singleton,
    Token.ofWord, Keyword.ofWord?_text]

theorem exists_first_phrase {j : Nat} (hj : 0 < j) (pos : Nat) (hle : j ≤ (runs pos cs).length) :
    ∃ seps p rest, cs = seps ++ p ++ rest ∧ (∀ c ∈ seps, isSeparator c = true) ∧ Phrase p ∧
      Detached rest ∧ runs (pos + byteLength seps) p = (runs pos cs).take j ∧
      runs (pos + byteLength seps + byteLength p) rest = (runs pos cs).drop j := by
  induction j generalizing cs pos with
  | zero => exact absurd hj (by simp)
  | succ j ih =>
    rcases first_word cs with hseps | ⟨seps, w, rest, rfl, hseps, hne, hw, hrest⟩
    · rw [← List.append_nil cs, runs_of_separators hseps] at hle
      exact absurd hle (by simp [runs])
    · have hruns := runs_first_word hseps hne hw hrest pos
      -- the phrase is the first word, or goes on to the end of a phrase of what follows it
      cases j with
      | zero =>
        refine ⟨seps, w, rest, rfl, hseps, phrase_of_word hne hw, hrest, ?_, ?_⟩
        · rw [hruns, runs_word hne hw]
          rfl
        · rw [hruns]
          rfl
      | succ j =>
        rw [hruns, List.length_cons] at hle
        obtain ⟨seps', p, rest', rfl, hseps', hp, hrest', htake, hdrop⟩ :=
          ih (by omega) (pos + byteLength seps + byteLength w) (Nat.le_of_succ_le_succ hle)
        have hmiddle : Detached (seps' ++ p) := by
          intro c hc
          refine hrest c ?_
          rw [List.head?_append, hc]
          rfl
        refine ⟨seps, w ++ seps' ++ p, rest', by simp, hseps,
          (phrase_of_word hne hw).append hp, hrest', ?_, ?_⟩
        · rw [hruns, List.append_assoc, runs_append hmiddle, runs_word hne hw,
            runs_of_separators hseps', htake]
          rfl
        · rw [hruns, List.drop_succ_cons, ← hdrop]
          simp only [byteLength_append, Nat.add_assoc]

theorem exists_phrase {i j : Nat} (hij : i < j) (pos : Nat) (hle : j ≤ (runs pos cs).length) :
    ∃ before p after, cs = before ++ p ++ after ∧ Phrase p ∧
      runs (pos + byteLength before) p = ((runs pos cs).drop i).take (j - i) := by
  by_cases hi : i = 0
  · subst hi
    obtain ⟨seps, p, rest, hcs, -, hp, -, htake, -⟩ := exists_first_phrase hij pos hle
    exact ⟨seps, p, rest, hcs, hp, htake⟩
  · have hile : i ≤ (runs pos cs).length := by omega
    obtain ⟨seps, q, rest, rfl, -, hq, -, -, hdrop⟩ :=
      exists_first_phrase (Nat.pos_of_ne_zero hi) pos hile
    have hlen := congrArg List.length hdrop
    rw [List.length_drop] at hlen
    have hle' : j - i ≤ (runs (pos + byteLength seps + byteLength q) rest).length := by omega
    obtain ⟨seps', p, after, rfl, -, hp, -, htake, -⟩ :=
      exists_first_phrase (by omega) _ hle'
    refine ⟨seps ++ q ++ seps', p, after, by simp, hp, ?_⟩
    rw [← hdrop, ← htake]
    simp only [byteLength_append, Nat.add_assoc]

/-- Cutting at the tokens of a phrase gives the phrase. -/
theorem slice_phrase (bs : List Char) {spans : List Span} {i pos : Nat} (hp : Phrase cs)
    (hpos : pos = byteLength as)
    (hspans : (spans.drop i).take (words cs).length = (runs pos cs).map Run.span) :
    (Source.mk (as ++ cs ++ bs) spans).slice ⟨i, i + (words cs).length⟩ = String.ofList cs := by
  obtain ⟨r, rs, hhead, hstart⟩ := hp.head_runs pos
  obtain ⟨qs, q, hlast, hstop⟩ := hp.last_runs pos
  have hlen := length_runs cs pos
  have hpositive : 0 < (words cs).length := by
    rw [← hlen, hhead]
    simp
  have hget : ∀ m < (words cs).length, spans[i + m]? = ((runs pos cs).map Run.span)[m]? := by
    intro m hm
    rw [← hspans, List.getElem?_take_of_lt hm, List.getElem?_drop]
  have hfirst : spans[i]? = some r.span := by
    have := hget 0 hpositive
    rw [hhead] at this
    exact this
  have hfinal : spans[i + (words cs).length - 1]? = some q.span := by
    have := hget ((words cs).length - 1) (by omega)
    rw [← hlen, hlast] at this
    rw [← hlen, hlast]
    simpa using this
  rw [Source.slice, if_pos (by simpa using hpositive)]
  simp only [hfirst, hfinal, hstart, hstop, hpos, sliceBytes?_middle, Option.getD_some]

end Daybook
