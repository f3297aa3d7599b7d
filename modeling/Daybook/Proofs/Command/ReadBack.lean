import Daybook.Proofs.Command.Layout
import Daybook.Proofs.Command.Literals
import Daybook.Proofs.Command.Respelling

/-!
Commands that are written and read back, one case for each shape. Main statement: whatever tokens
a command was read off, what is written for it has their shape, and its values are read as before.
-/
namespace Daybook

namespace Outline
variable {b : List Token} {i : Nat}

theorem fits_plainWord {t : List Char} (h : PlainWord t) :
    Part.Fits (.clause ⟨i, i + 1⟩) t := by
  refine ⟨h.phrase, ?_⟩
  rw [words_word h.ne_nil h.unbroken]
  exact (Nat.add_sub_cancel_left i 1).symm

theorem fits_of_tokens {t : List Char} {j : Nat} (h : Phrase t)
    (htokens : tokensOf t = (Part.clause ⟨i, j⟩).tokens b) (hle : j ≤ b.length) :
    Part.Fits (.clause ⟨i, j⟩) t := by
  refine ⟨h, ?_⟩
  rw [← length_tokensOf, htokens, Part.tokens, List.length_take, List.length_drop]
  exact Nat.min_eq_left (Nat.sub_le_sub_right hle i)

theorem Worded.ne_nil {text : Span → String} {o : Outline} (h : Worded b text o) {s : Span}
    (hs : s ∈ spans o.parts) : (text s).toList ≠ [] := by
  obtain ⟨p, hp, hphrase, -⟩ := h s hs
  rw [hp, String.toList_ofList]
  exact hphrase.ne_nil

end Outline

namespace Command
open Outline

def ruleChunks (last : Instant → String) (rule : Option Rule) : List (List Char) :=
  ((rule.map (Rule.words last)).getD []).map String.toList

theorem readRule?_some_iff {text : Span → String} {bound : String → Except ParseError Instant}
    {r : Repeats} {rule : Option Rule} :
    readRule? text bound (some r) = .ok rule ↔
      ∃ rule', readRule text bound r = .ok rule' ∧ some rule' = rule :=
  map_eq_ok_iff

/-- The rule of a repeats clause, written: it fits the clause, holds no keyword but the clause's own,
and is read as the same rule. -/
theorem rule_readsBack {l : List Token} {i : Nat} {r : Option Repeats} {rule : Option Rule}
    {text : Span → String} {bound : String → Except ParseError Instant} (last : Instant → String)
    (hshape : RepeatsShape i l r) (hrule : readRule? text bound r = .ok rule)
    (hwords : ∀ s ∈ spans (repeatsParts r), (text s).toList ≠ [])
    (hlast : ∀ s t, bound s = .ok t → PlainWord (last t).toList ∧ bound (last t) = .ok t) :
    List.Forall₂ Part.Fits (repeatsParts r) (ruleChunks last rule) ∧
      RepeatsShape i ((ruleChunks last rule).flatMap tokensOf) r ∧
      (∀ k ∈ [Keyword.from_, .to_, .autoDecline],
        Token.keyword k ∉ (ruleChunks last rule).flatMap tokensOf) ∧
      ∀ text', List.Forall₂ (Part.Holds text') (repeatsParts r) (ruleChunks last rule) →
        readRule? text' bound r = .ok rule := by
  cases hshape with
  | none =>
    cases hrule
    exact ⟨.nil, .none, by simp [ruleChunks], fun _ _ => rfl⟩
  | count x y =>
    obtain ⟨rule, hread, rfl⟩ := readRule?_some_iff.1 hrule
    simp only [readRule, bind_eq_ok_iff] at hread
    obtain ⟨days, hdays, n, hn, hpure⟩ := hread
    cases hpure
    have hletters := WeekdaySet.plainWord_letters
      (toList_ne_nil_of_readWeekdays hdays (hwords _ (by simp [repeatsParts, spans])))
    have hdigits := Decimal.plainWord_digits n.val
    have hchunks : ruleChunks last (some ⟨days, .count n⟩) =
        [Keyword.repeats.text.toList, days.letters.toList, Keyword.for_.text.toList,
          Decimal.digits n.val, Keyword.times.text.toList] := by
      simp [ruleChunks, Rule.words]
    have htokens : (ruleChunks last (some ⟨days, .count n⟩)).flatMap tokensOf =
        [.keyword .repeats, .word, .keyword .for_, .word, .keyword .times] := by
      simp [hchunks, Keyword.tokensOf_text, hletters.tokensOf, hdigits.tokensOf]
    refine ⟨?_, htokens ▸ .count .word .word, by simp [htokens], fun text' hholds => ?_⟩
    · rw [hchunks]
      exact .cons rfl (.cons (fits_plainWord hletters) (.cons rfl
        (.cons (fits_plainWord hdigits) (.cons rfl .nil))))
    · rw [hchunks] at hholds
      simp only [repeatsParts, List.forall₂_cons, Part.Holds, String.ofList_toList] at hholds
      obtain ⟨-, hdays', -, hn', -⟩ := hholds
      rw [readRule?, readRule, hdays', readWeekdays_letters]
      simp only [bind, Except.bind, hn', readCount_digits]
      rfl
  | bound x y =>
    obtain ⟨rule, hread, rfl⟩ := readRule?_some_iff.1 hrule
    simp only [readRule, bind_eq_ok_iff] at hread
    obtain ⟨days, hdays, t, ht, hpure⟩ := hread
    cases hpure
    have hletters := WeekdaySet.plainWord_letters
      (toList_ne_nil_of_readWeekdays hdays (hwords _ (by simp [repeatsParts, spans])))
    obtain ⟨hbound, hagain⟩ := hlast _ t ht
    have hchunks : ruleChunks last (some ⟨days, .before t⟩) =
        [Keyword.repeats.text.toList, days.letters.toList, Keyword.until_.text.toList,
          (last t).toList] := by
      simp [ruleChunks, Rule.words]
    have htokens : (ruleChunks last (some ⟨days, .before t⟩)).flatMap tokensOf =
        [.keyword .repeats, .word, .keyword .until_, .word] := by
      simp [hchunks, Keyword.tokensOf_text, hletters.tokensOf, hbound.tokensOf]
    refine ⟨?_, htokens ▸ .bound .word .word, by simp [htokens], fun text' hholds => ?_⟩
    · rw [hchunks]
      exact .cons rfl (.cons (fits_plainWord hletters) (.cons rfl
        (.cons (fits_plainWord hbound) .nil)))
    · rw [hchunks] at hholds
      simp only [repeatsParts, List.forall₂_cons, Part.Holds, String.ofList_toList] at hholds
      obtain ⟨-, hdays', -, ht', -⟩ := hholds
      rw [readRule?, readRule, hdays', readWeekdays_letters]
      simp only [bind, Except.bind, ht', hagain]
      rfl

def bare : Command → Command
  | createTimed name start stop rule _ => createTimed name start stop rule false
  | createAllDay name date rule _ => createAllDay name date rule false
  | c => c

def declines : Command → Bool
  | createTimed _ _ _ _ declines => declines
  | createAllDay _ _ _ declines => declines
  | _ => false

def chunks (c : Command) : List (List Char) := c.bare.clauses.map String.toList

/-- What makes a command come back from its canonical line: the line has the shape that the command
was read off, and the values in it are read as they were. -/
structure ReadsBack (c : Command) (verb : Verb) (o : Outline) : Prop where
  verb_eq : c.verb = verb
  fits : List.Forall₂ Part.Fits o.parts c.chunks
  shape : Shape (c.chunks.flatMap tokensOf) verb o
  unflagged : verb = .createEvent → Token.keyword .autoDecline ∉ c.chunks.flatMap tokensOf
  reads : ∀ text, List.Forall₂ (Part.Holds text) o.parts c.chunks →
    ofOutline text c.declines o = .ok c

variable {b : List Token} {text : Span → String} {flagged : Bool} {c : Command}

theorem readsBack_createTimed {f : Nat} {r : Option Repeats} (hf : TimedAt b f)
    (hr : RepeatsShape (f + 4) (b.drop (f + 4)) r)
    (hworded : Worded b text (.createTimed ⟨0, f⟩ ⟨f + 1, f + 2⟩ ⟨f + 3, f + 4⟩ r))
    (hread : ofOutline text flagged (.createTimed ⟨0, f⟩ ⟨f + 1, f + 2⟩ ⟨f + 3, f + 4⟩ r) = .ok c)
    (hflag : Token.keyword .autoDecline ∉ b) :
    c.ReadsBack .createEvent (.createTimed ⟨0, f⟩ ⟨f + 1, f + 2⟩ ⟨f + 3, f + 4⟩ r) := by
  simp only [ofOutline, bind_eq_ok_iff] at hread
  obtain ⟨start, hstart, stop, hstop, rule, hrule, hpure⟩ := hread
  cases hpure
  have hlen := hf.2.2.2
  obtain ⟨p, hname, hp, htokens⟩ := hworded ⟨0, f⟩ (by simp [parts, spans])
  have hstart' := onMinute_of_readInstant hstart
  have hstop' := onMinute_of_readInstant hstop
  obtain ⟨hfits, hshape, hfree, hreads⟩ := rule_readsBack Instant.literal hr hrule
    (fun s hs => hworded.ne_nil (by simp [parts, spans, hs]))
    (fun s t ht => ⟨t.plainWord_literal, readInstant_literal (onMinute_of_readInstant ht)⟩)
  have hchunks : (createTimed (text ⟨0, f⟩) start stop rule flagged).chunks =
      p :: Keyword.from_.text.toList :: start.literal.toList :: Keyword.to_.text.toList ::
        stop.literal.toList :: ruleChunks Instant.literal rule := by
    simp [chunks, bare, clauses, flagWords, ruleChunks, hname]
  have hall : (createTimed (text ⟨0, f⟩) start stop rule flagged).chunks.flatMap tokensOf =
      b.take f ++ .keyword .from_ :: .word :: .keyword .to_ :: .word ::
        (ruleChunks Instant.literal rule).flatMap tokensOf := by
    simp [hchunks, htokens, Part.tokens, Keyword.tokensOf_text, start.plainWord_literal.tokensOf,
      stop.plainWord_literal.tokensOf]
  refine ⟨rfl, ?_, ?_, fun _ => ?_, fun text' hholds => ?_⟩
  · rw [hchunks]
    exact .cons (fits_of_tokens hp htokens (by omega)) (.cons rfl
      (.cons (fits_plainWord start.plainWord_literal) (.cons rfl
        (.cons (fits_plainWord stop.plainWord_literal) hfits))))
  · rw [hall]
    refine .createTimed hf.take_append ?_
    rw [drop_take_append (by omega)]
    exact hshape
  · rw [hall]
    have hname : Token.keyword .autoDecline ∉ b.take f := fun h => hflag (List.mem_of_mem_take h)
    simpa [hname] using hfree .autoDecline (by simp)
  · rw [hchunks] at hholds
    simp only [parts, List.forall₂_cons, Part.Holds, String.ofList_toList, true_and] at hholds
    obtain ⟨hname', hstart₂, hstop₂, hrule'⟩ := hholds
    simp only [ofOutline, hstart₂, hstop₂, readInstant_literal hstart', readInstant_literal hstop',
      hreads text' hrule', hname', hname, declines, bind, Except.bind]
    rfl

theorem readsBack_createAllDay {o : Nat} {r : Option Repeats} (hno : ∀ f, ¬ TimedAt b f)
    (hfirst : FirstAt b [.on_] 0 o) (hpos : 1 ≤ o) (hlen : o + 1 < b.length)
    (hr : RepeatsShape (o + 2) (b.drop (o + 2)) r)
    (hworded : Worded b text (.createAllDay ⟨0, o⟩ ⟨o + 1, o + 2⟩ r))
    (hread : ofOutline text flagged (.createAllDay ⟨0, o⟩ ⟨o + 1, o + 2⟩ r) = .ok c)
    (hflag : Token.keyword .autoDecline ∉ b) :
    c.ReadsBack .createEvent (.createAllDay ⟨0, o⟩ ⟨o + 1, o + 2⟩ r) := by
  simp only [ofOutline, bind_eq_ok_iff] at hread
  obtain ⟨date, hdate, rule, hrule, hpure⟩ := hread
  cases hpure
  obtain ⟨p, hname, hp, htokens⟩ := hworded ⟨0, o⟩ (by simp [parts, spans])
  have hlast : ∀ s t, readDayBound s = .ok t →
      PlainWord (lastDay t).toList ∧ readDayBound (lastDay t) = .ok t :=
    fun s t ht => ⟨Date.plainWord_text _, readDayBound_lastDay ht⟩
  obtain ⟨hfits, hshape, hfree, hreads⟩ := rule_readsBack lastDay hr hrule
    (fun s hs => hworded.ne_nil (by simp [parts, spans, hs])) hlast
  have hchunks : (createAllDay (text ⟨0, o⟩) date rule flagged).chunks =
      p :: Keyword.on_.text.toList :: date.text.toList :: ruleChunks lastDay rule := by
    simp [chunks, bare, clauses, flagWords, ruleChunks, hname]
  have hall : (createAllDay (text ⟨0, o⟩) date rule flagged).chunks.flatMap tokensOf =
      b.take o ++ .keyword .on_ :: .word :: (ruleChunks lastDay rule).flatMap tokensOf := by
    simp [hchunks, htokens, Part.tokens, Keyword.tokensOf_text, date.plainWord_text.tokensOf]
  have hon : b[o]? = some (.keyword .on_) := by simpa using hfirst.2.1
  refine ⟨rfl, ?_, ?_, fun _ => ?_, fun text' hholds => ?_⟩
  · rw [hchunks]
    exact .cons (fits_of_tokens hp htokens (by omega)) (.cons rfl
      (.cons (fits_plainWord date.plainWord_text) hfits))
  · rw [hall]
    have hfree' : ∀ k ∈ [Keyword.from_, .to_],
        Token.keyword k ∉ (ruleChunks lastDay rule).flatMap tokensOf :=
      fun k hk => hfree k (by simp at hk ⊢; tauto)
    refine .createAllDay (not_timedAt_take_append hno hlen rfl hfree') (hfirst.take_append hon) hpos
      ?_ ?_
    · rw [List.length_append, List.length_take]
      simp only [List.length_cons]
      omega
    · rw [drop_take_append (by omega)]
      exact hshape
  · rw [hall]
    have hname : Token.keyword .autoDecline ∉ b.take o := fun h => hflag (List.mem_of_mem_take h)
    simpa [hname] using hfree .autoDecline (by simp)
  · rw [hchunks] at hholds
    simp only [parts, List.forall₂_cons, Part.Holds, String.ofList_toList, true_and] at hholds
    obtain ⟨hname', hdate', hrule'⟩ := hholds
    simp only [ofOutline, hdate', readDate_text, hreads text' hrule', hname', hname, declines, bind,
      Except.bind]
    rfl

structure EditTexts (b : List Token) (text : Span → String) (k m : Nat) (p q w : List Char) :
    Prop where
  property : text ⟨0, 1⟩ = String.ofList p
  name : text ⟨1, k⟩ = String.ofList q
  value : text ⟨m, b.length⟩ = String.ofList w
  fits_property : Part.Fits (.clause ⟨0, 1⟩) p
  fits_name : Part.Fits (.clause ⟨1, k⟩) q
  fits_value : Part.Fits (.clause ⟨m, b.length⟩) w
  tokens_front : tokensOf p ++ tokensOf q = b.take k
  tokens_value : tokensOf w = b.drop m

theorem exists_editTexts {k m : Nat} {o : Outline} (hworded : Worded b text o) (hk : 2 ≤ k)
    (hlen : k ≤ b.length) (hproperty : ⟨0, 1⟩ ∈ spans o.parts) (hname : ⟨1, k⟩ ∈ spans o.parts)
    (hvalue : ⟨m, b.length⟩ ∈ spans o.parts) : ∃ p q w, EditTexts b text k m p q w := by
  obtain ⟨p, hp, hpphrase, hptokens⟩ := hworded _ hproperty
  obtain ⟨q, hq, hqphrase, hqtokens⟩ := hworded _ hname
  obtain ⟨w, hw, hwphrase, hwtokens⟩ := hworded _ hvalue
  refine ⟨p, q, w, hp, hq, hw, fits_of_tokens hpphrase hptokens (by omega),
    fits_of_tokens hqphrase hqtokens hlen, fits_of_tokens hwphrase hwtokens (Nat.le_refl _), ?_, ?_⟩
  · obtain ⟨n, rfl⟩ : ∃ n, k = 1 + n := ⟨k - 1, by omega⟩
    rw [hptokens, hqtokens, List.take_add, Part.tokens, Part.tokens, Nat.add_sub_cancel_left]
    rfl
  · rw [hwtokens, Part.tokens, ← List.length_drop, List.take_length]

theorem readsBack_editSingle {k : Nat} {x y : Token} {v : List Token}
    (hfirst : FirstAt b [.from_, .with_] 1 k) (hk : 2 ≤ k)
    (hb : b.drop k = .keyword .from_ :: x :: .keyword .to_ :: y :: .keyword .with_ :: v)
    (hv : v ≠ [])
    (hworded : Worded b text
      (.editSingle ⟨0, 1⟩ ⟨1, k⟩ ⟨k + 1, k + 2⟩ ⟨k + 3, k + 4⟩ ⟨k + 5, b.length⟩))
    (hread : ofOutline text flagged
      (.editSingle ⟨0, 1⟩ ⟨1, k⟩ ⟨k + 1, k + 2⟩ ⟨k + 3, k + 4⟩ ⟨k + 5, b.length⟩) = .ok c) :
    c.ReadsBack .editEvent
      (.editSingle ⟨0, 1⟩ ⟨1, k⟩ ⟨k + 1, k + 2⟩ ⟨k + 3, k + 4⟩ ⟨k + 5, b.length⟩) := by
  simp only [ofOutline, bind_eq_ok_iff] at hread
  obtain ⟨start, hstart, stop, hstop, hpure⟩ := hread
  cases hpure
  simp only [drop_eq_cons_iff] at hb
  obtain ⟨hfrom, -, -, -, -, rfl⟩ := hb
  have hlen : k + 5 < b.length := by simpa using hv
  have hkb : k ≤ b.length := by omega
  obtain ⟨p, q, w, htexts⟩ := exists_editTexts (m := k + 5) hworded hk hkb (by simp [parts, spans])
    (by simp [parts, spans]) (by simp [parts, spans])
  have hstart' := readInstant_literal (onMinute_of_readInstant hstart)
  have hstop' := readInstant_literal (onMinute_of_readInstant hstop)
  have hchunks : (editSingle (text ⟨0, 1⟩) (text ⟨1, k⟩) start stop
      (text ⟨k + 5, b.length⟩)).chunks =
      [p, q, Keyword.from_.text.toList, start.literal.toList, Keyword.to_.text.toList,
        stop.literal.toList, Keyword.with_.text.toList, w] := by
    simp [chunks, bare, clauses, htexts.property, htexts.name, htexts.value]
  have hall : (editSingle (text ⟨0, 1⟩) (text ⟨1, k⟩) start stop
      (text ⟨k + 5, b.length⟩)).chunks.flatMap tokensOf =
      b.take k ++ .keyword .from_ :: .word :: .keyword .to_ :: .word :: .keyword .with_ ::
        b.drop (k + 5) := by
    rw [← htexts.tokens_front, ← htexts.tokens_value]
    simp [hchunks, Keyword.tokensOf_text, start.plainWord_literal.tokensOf,
      stop.plainWord_literal.tokensOf]
  have hsize : (b.take k ++ .keyword .from_ :: .word :: .keyword .to_ :: .word ::
      .keyword .with_ :: b.drop (k + 5)).length = b.length := by
    simp only [List.length_append, List.length_take, List.length_cons, List.length_drop]
    omega
  refine ⟨rfl, ?_, ?_, fun hcreate => absurd hcreate (by decide), fun text' hholds => ?_⟩
  · rw [hchunks]
    exact .cons htexts.fits_property (.cons htexts.fits_name (.cons rfl
      (.cons (fits_plainWord start.plainWord_literal) (.cons rfl
      (.cons (fits_plainWord stop.plainWord_literal) (.cons rfl
      (.cons htexts.fits_value .nil)))))))
  · rw [hall, ← hsize]
    exact .editSingle (hfirst.take_append hfrom) hk (drop_take_append hkb 0) hv
  · rw [hchunks] at hholds
    simp only [parts, List.forall₂_cons, Part.Holds, String.ofList_toList, true_and] at hholds
    obtain ⟨hproperty', hname', hstart₂, hstop₂, hvalue', -⟩ := hholds
    simp only [ofOutline, hstart₂, hstop₂, hstart', hstop', hproperty', hname', hvalue',
      htexts.property, htexts.name, htexts.value, bind, Except.bind]
    rfl

theorem readsBack_editFrom {k : Nat} {x : Token} {v : List Token}
    (hfirst : FirstAt b [.from_, .with_] 1 k) (hk : 2 ≤ k)
    (hb : b.drop k = .keyword .from_ :: x :: .keyword .with_ :: v) (hv : v ≠ [])
    (hworded : Worded b text
      (.editMany ⟨0, 1⟩ ⟨1, k⟩ (some ⟨k + 1, k + 2⟩) ⟨k + 3, b.length⟩))
    (hread : ofOutline text flagged
      (.editMany ⟨0, 1⟩ ⟨1, k⟩ (some ⟨k + 1, k + 2⟩) ⟨k + 3, b.length⟩) = .ok c) :
    c.ReadsBack .editEvents (.editMany ⟨0, 1⟩ ⟨1, k⟩ (some ⟨k + 1, k + 2⟩) ⟨k + 3, b.length⟩) := by
  simp only [ofOutline, bind_eq_ok_iff] at hread
  obtain ⟨start, hstart, hpure⟩ := hread
  cases hpure
  simp only [drop_eq_cons_iff] at hb
  obtain ⟨hfrom, -, -, rfl⟩ := hb
  have hlen : k + 3 < b.length := by simpa using hv
  have hkb : k ≤ b.length := by omega
  obtain ⟨p, q, w, htexts⟩ := exists_editTexts (m := k + 3) hworded hk hkb (by simp [parts, spans])
    (by simp [parts, spans]) (by simp [parts, spans])
  have hstart' := readInstant_literal (onMinute_of_readInstant hstart)
  have hchunks : (editFrom (text ⟨0, 1⟩) (text ⟨1, k⟩) start (text ⟨k + 3, b.length⟩)).chunks =
      [p, q, Keyword.from_.text.toList, start.literal.toList, Keyword.with_.text.toList, w] := by
    simp [chunks, bare, clauses, htexts.property, htexts.name, htexts.value]
  have hall : (editFrom (text ⟨0, 1⟩) (text ⟨1, k⟩) start
      (text ⟨k + 3, b.length⟩)).chunks.flatMap tokensOf =
      b.take k ++ .keyword .from_ :: .word :: .keyword .with_ :: b.drop (k + 3) := by
    rw [← htexts.tokens_front, ← htexts.tokens_value]
    simp [hchunks, Keyword.tokensOf_text, start.plainWord_literal.tokensOf]
  have hsize : (b.take k ++ .keyword .from_ :: .word :: .keyword .with_ ::
      b.drop (k + 3)).length = b.length := by
    simp only [List.length_append, List.length_take, List.length_cons, List.length_drop]
    omega
  refine ⟨rfl, ?_, ?_, fun hcreate => absurd hcreate (by decide), fun text' hholds => ?_⟩
  · rw [hchunks]
    exact .cons htexts.fits_property (.cons htexts.fits_name (.cons rfl
      (.cons (fits_plainWord start.plainWord_literal) (.cons rfl
      (.cons htexts.fits_value .nil)))))
  · rw [hall, ← hsize]
    exact .editFrom (hfirst.take_append hfrom) hk (drop_take_append hkb 0) hv
  · rw [hchunks] at hholds
    simp only [parts, List.forall₂_cons, Part.Holds, String.ofList_toList, true_and] at hholds
    obtain ⟨hproperty', hname', hstart₂, hvalue', -⟩ := hholds
    simp only [ofOutline, hstart₂, hstart', hproperty', hname', hvalue',
      htexts.property, htexts.name, htexts.value, bind, Except.bind]
    rfl

theorem readsBack_editNamed {k : Nat} {v : List Token}
    (hfirst : FirstAt b [.from_, .with_] 1 k) (hk : 2 ≤ k)
    (hb : b.drop k = .keyword .with_ :: v) (hv : v ≠ [])
    (hworded : Worded b text (.editMany ⟨0, 1⟩ ⟨1, k⟩ none ⟨k + 1, b.length⟩))
    (hread : ofOutline text flagged (.editMany ⟨0, 1⟩ ⟨1, k⟩ none ⟨k + 1, b.length⟩) = .ok c) :
    c.ReadsBack .editEvents (.editMany ⟨0, 1⟩ ⟨1, k⟩ none ⟨k + 1, b.length⟩) := by
  cases hread
  obtain ⟨hwith, rfl⟩ := drop_eq_cons_iff.1 hb
  have hlen : k + 1 < b.length := by simpa using hv
  have hkb : k ≤ b.length := by omega
  obtain ⟨p, q, w, htexts⟩ := exists_editTexts (m := k + 1) hworded hk hkb (by simp [parts, spans])
    (by simp [parts, spans]) (by simp [parts, spans])
  have hchunks : (editNamed (text ⟨0, 1⟩) (text ⟨1, k⟩) (text ⟨k + 1, b.length⟩)).chunks =
      [p, q, Keyword.with_.text.toList, w] := by
    simp [chunks, bare, clauses, htexts.property, htexts.name, htexts.value]
  have hall : (editNamed (text ⟨0, 1⟩) (text ⟨1, k⟩)
      (text ⟨k + 1, b.length⟩)).chunks.flatMap tokensOf =
      b.take k ++ .keyword .with_ :: b.drop (k + 1) := by
    rw [← htexts.tokens_front, ← htexts.tokens_value]
    simp [hchunks, Keyword.tokensOf_text]
  have hsize : (b.take k ++ .keyword .with_ :: b.drop (k + 1)).length = b.length := by
    simp only [List.length_append, List.length_take, List.length_cons, List.length_drop]
    omega
  refine ⟨rfl, ?_, ?_, fun hcreate => absurd hcreate (by decide), fun text' hholds => ?_⟩
  · rw [hchunks]
    exact .cons htexts.fits_property (.cons htexts.fits_name (.cons rfl
      (.cons htexts.fits_value .nil)))
  · rw [hall, ← hsize]
    exact .editNamed (hfirst.take_append hwith) hk (drop_take_append hkb 0) hv
  · rw [hchunks] at hholds
    simp only [parts, List.forall₂_cons, Part.Holds, true_and] at hholds
    obtain ⟨hproperty', hname', hvalue', -⟩ := hholds
    simp only [ofOutline, hproperty', hname', hvalue', htexts.property, htexts.name, htexts.value]
    rfl

theorem readsBack_printOn (hread : ofOutline text flagged (.printOn ⟨0, 1⟩) = .ok c) :
    c.ReadsBack .printOn (.printOn ⟨0, 1⟩) := by
  simp only [ofOutline, bind_eq_ok_iff] at hread
  obtain ⟨date, -, hpure⟩ := hread
  cases hpure
  have hword := date.plainWord_text
  have hchunks : (queryOn date).chunks = [date.text.toList] := rfl
  refine ⟨rfl, ?_, ?_, fun hcreate => absurd hcreate (by decide), fun text' hholds => ?_⟩
  · rw [hchunks]
    exact .cons (fits_plainWord hword) .nil
  · rw [hchunks]
    exact .printOn (x := .word) (by simp [hword.tokensOf])
  · rw [hchunks] at hholds
    simp only [parts, List.forall₂_cons, Part.Holds, String.ofList_toList] at hholds
    rw [ofOutline, hholds.1, readDate_text]
    rfl

theorem readsBack_printRange
    (hread : ofOutline text flagged (.printRange ⟨0, 1⟩ ⟨2, 3⟩) = .ok c) :
    c.ReadsBack .printFrom (.printRange ⟨0, 1⟩ ⟨2, 3⟩) := by
  simp only [ofOutline, bind_eq_ok_iff] at hread
  obtain ⟨start, hstart, stop, hstop, hpure⟩ := hread
  cases hpure
  have hstart' := readInstant_literal (onMinute_of_readInstant hstart)
  have hstop' := readInstant_literal (onMinute_of_readInstant hstop)
  have hchunks : (queryRange start stop).chunks =
      [start.literal.toList, Keyword.to_.text.toList, stop.literal.toList] := rfl
  refine ⟨rfl, ?_, ?_, fun hcreate => absurd hcreate (by decide), fun text' hholds => ?_⟩
  · rw [hchunks]
    exact .cons (fits_plainWord start.plainWord_literal) (.cons rfl
      (.cons (fits_plainWord stop.plainWord_literal) .nil))
  · rw [hchunks]
    refine .printRange (x := .word) (y := .word) ?_
    simp [Keyword.tokensOf_text, start.plainWord_literal.tokensOf,
      stop.plainWord_literal.tokensOf]
  · rw [hchunks] at hholds
    simp only [parts, List.forall₂_cons, Part.Holds, String.ofList_toList, true_and] at hholds
    obtain ⟨hstart₂, hstop₂, -⟩ := hholds
    simp only [ofOutline, hstart₂, hstop₂, hstart', hstop', bind, Except.bind]
    rfl

theorem readsBack_showStatus (hread : ofOutline text flagged (.showStatus ⟨0, 1⟩) = .ok c) :
    c.ReadsBack .showStatus (.showStatus ⟨0, 1⟩) := by
  simp only [ofOutline, bind_eq_ok_iff] at hread
  obtain ⟨instant, hinstant, hpure⟩ := hread
  cases hpure
  have hword := instant.plainWord_literal
  have hchunks : (showStatus instant).chunks = [instant.literal.toList] := rfl
  refine ⟨rfl, ?_, ?_, fun hcreate => absurd hcreate (by decide), fun text' hholds => ?_⟩
  · rw [hchunks]
    exact .cons (fits_plainWord hword) .nil
  · rw [hchunks]
    exact .showStatus (x := .word) (by simp [hword.tokensOf])
  · rw [hchunks] at hholds
    simp only [parts, List.forall₂_cons, Part.Holds, String.ofList_toList] at hholds
    rw [ofOutline, hholds.1, readInstant_literal (onMinute_of_readInstant hinstant)]
    rfl

theorem readsBack_exportTo {dialect : Csv.Dialect} {verb : Verb} {x : Token} {l : List Token}
    (hverb : ∀ path, (exportTo dialect path).verb = verb) (hne : verb ≠ .createEvent)
    (hshape : ∀ y, Shape [y] verb (.exportTo dialect ⟨0, 1⟩)) (hb : b = x :: l)
    (hworded : Worded b text (.exportTo dialect ⟨0, 1⟩))
    (hread : ofOutline text flagged (.exportTo dialect ⟨0, 1⟩) = .ok c) :
    c.ReadsBack verb (.exportTo dialect ⟨0, 1⟩) := by
  cases hread
  obtain ⟨p, hpath, hp, htokens⟩ := hworded ⟨0, 1⟩ (by simp [parts, spans])
  have hchunks : (exportTo dialect (text ⟨0, 1⟩)).chunks = [p] := by
    simp [chunks, bare, clauses, hpath]
  refine ⟨hverb _, ?_, ?_, fun hcreate => absurd hcreate hne, fun text' hholds => ?_⟩
  · rw [hchunks]
    exact .cons (fits_of_tokens hp htokens (by simp [hb])) .nil
  · have hall : (exportTo dialect (text ⟨0, 1⟩)).chunks.flatMap tokensOf = [x] := by
      rw [hchunks, List.flatMap_singleton, htokens, hb]
      rfl
    rw [hall]
    exact hshape x
  · rw [hchunks] at hholds
    simp only [parts, List.forall₂_cons, Part.Holds] at hholds
    rw [ofOutline, hholds.1, hpath]
    rfl

/-- Whatever the tokens were that a command was read off, its canonical line gives it back. -/
theorem readsBack_of_shape {verb : Verb} {o : Outline} (hshape : Shape b verb o)
    (hworded : Worded b text o) (hread : ofOutline text flagged o = .ok c)
    (hflag : verb = .createEvent → Token.keyword .autoDecline ∉ b) : c.ReadsBack verb o := by
  cases hshape with
  | createTimed hf hr => exact readsBack_createTimed hf hr hworded hread (hflag rfl)
  | createAllDay hno hfirst hpos hlen hr =>
    exact readsBack_createAllDay hno hfirst hpos hlen hr hworded hread (hflag rfl)
  | editSingle hfirst hk hb hv => exact readsBack_editSingle hfirst hk hb hv hworded hread
  | editFrom hfirst hk hb hv => exact readsBack_editFrom hfirst hk hb hv hworded hread
  | editNamed hfirst hk hb hv => exact readsBack_editNamed hfirst hk hb hv hworded hread
  | printOn => exact readsBack_printOn hread
  | printRange => exact readsBack_printRange hread
  | exportCal hb =>
    exact readsBack_exportTo (fun _ => rfl) (by decide) (fun y => .exportCal rfl) hb hworded hread
  | exportGoogle hb =>
    exact readsBack_exportTo (fun _ => rfl) (by decide) (fun y => .exportGoogle rfl) hb hworded hread
  | showStatus => exact readsBack_showStatus hread

end Command
end Daybook
