import Daybook.Command.TokenRules
import Daybook.Proofs.Command.Words

/-!
Tokens by rules are the words of a line. Main statement: whichever way the longest match is found, a
line is never refused, and its tokens are those of its runs.
-/
namespace Daybook
variable {cs seps w rest : List Char} {next : List Char → Option Match}

namespace Keyword

theorem fold_of_isSeparator {c : Char} (h : isSeparator c = true) : fold c = c := by
  simp only [isSeparator, Bool.or_eq_true, beq_iff_eq] at h
  rcases h with (((rfl | rfl) | rfl) | rfl) | rfl <;> decide

theorem map_fold_text (k : Keyword) : k.text.toList.map fold = k.text.toList := by
  cases k <;> decide

theorem two_le_length_text (k : Keyword) : 2 ≤ k.text.toList.length := by
  cases k <;> decide

theorem not_isSeparator_of_map_fold {k : Keyword} (h : w.map fold = k.text.toList) :
    ∀ c ∈ w, isSeparator c = false := by
  intro c hc
  rw [Bool.eq_false_iff]
  intro hsep
  have hmem : fold c ∈ k.text.toList := h ▸ List.mem_map_of_mem hc
  rw [fold_of_isSeparator hsep] at hmem
  exact Bool.false_ne_true ((k.text_unbroken hmem).symm.trans hsep)

end Keyword

/-- Characters of a kind at the front of a text end where that kind does. -/
theorem le_length_of_forall_take (kind : Char → Bool) {as bs : List Char} {n : Nat}
    (hn : n ≤ (as ++ bs).length) (h : ∀ c ∈ (as ++ bs).take n, kind c = true)
    (hbs : ∀ c, bs.head? = some c → kind c = false) : n ≤ as.length := by
  rw [← Nat.not_lt]
  intro hlt
  rw [List.length_append] at hn
  obtain ⟨b, bs, rfl⟩ : ∃ b bs', bs = b :: bs' := by
    refine List.exists_cons_of_length_pos ?_
    omega
  have hb : b ∈ (as ++ b :: bs).take n := by
    rw [List.take_append, List.mem_append]
    refine .inr ?_
    obtain ⟨m, hm⟩ : ∃ m, n - as.length = m + 1 := ⟨n - as.length - 1, by omega⟩
    rw [hm, List.take_succ_cons]
    exact List.mem_cons_self
  exact Bool.false_ne_true ((hbs b rfl).symm.trans (h b hb))

namespace Pattern

theorem takes_ofKeyword {k : Keyword} :
    (TokenRule.ofKeyword k).pattern.Takes w ↔ w.map Keyword.fold = k.text.toList := by
  rw [TokenRule.ofKeyword, Takes, k.map_fold_text]

theorem Takes.ne_nil {r : TokenRule} (hr : r ∈ TokenRule.all) (h : r.pattern.Takes w) : w ≠ [] := by
  rcases TokenRule.mem_all_iff.1 hr with rfl | ⟨k, rfl⟩ | rfl
  · exact h.1
  · rintro rfl
    exact k.text_ne_nil (takes_ofKeyword.1 h).symm
  · exact h.1

end Pattern

namespace Match
variable {m n : Match}

theorem Opens.of_takes {r : TokenRule} (hr : r ∈ TokenRule.all) (h : r.pattern.Takes w)
    (rest : List Char) : Opens ⟨r, w.length⟩ (w ++ rest) := by
  refine ⟨hr, by simp, ?_⟩
  rwa [List.take_left]

theorem Opens.length_pos (h : m.Opens cs) : 0 < m.length := by
  rw [Nat.pos_iff_ne_zero]
  intro hzero
  have hne := Pattern.Takes.ne_nil h.rule_mem h.takes
  rw [hzero, List.take_zero] at hne
  exact hne rfl

/-- A rule takes separators only, or none. -/
theorem Opens.blanks_or (h : m.Opens cs) :
    (m.rule = .blanks ∧ ∀ c ∈ cs.take m.length, isSeparator c = true) ∨
      ((∃ k, m.rule = .ofKeyword k) ∨ m.rule = .word) ∧
        ∀ c ∈ cs.take m.length, isSeparator c = false := by
  have htakes := h.takes
  rcases TokenRule.mem_all_iff.1 h.rule_mem with hr | ⟨k, hr⟩ | hr
  · rw [hr] at htakes
    exact .inl ⟨hr, htakes.2⟩
  · rw [hr] at htakes
    exact .inr ⟨.inl ⟨k, hr⟩, Keyword.not_isSeparator_of_map_fold (Pattern.takes_ofKeyword.1 htakes)⟩
  · rw [hr] at htakes
    exact .inr ⟨.inr hr, fun c hc => by simpa using htakes.2 c hc⟩

theorem Opens.head_mem {c : Char} (h : m.Opens (c :: cs)) : c ∈ (c :: cs).take m.length := by
  obtain ⟨k, hk⟩ := Nat.exists_eq_add_one.2 h.length_pos
  rw [hk, List.take_succ_cons]
  exact List.mem_cons_self

theorem Opens.of_separators (h : m.Opens (seps ++ rest)) (hne : seps ≠ [])
    (hseps : ∀ c ∈ seps, isSeparator c = true)
    (hrest : ∀ c, rest.head? = some c → isSeparator c = false) :
    m.rule = .blanks ∧ m.length ≤ seps.length := by
  rcases h.blanks_or with ⟨hr, htake⟩ | ⟨-, htake⟩
  · exact ⟨hr, le_length_of_forall_take isSeparator h.length_le htake hrest⟩
  · obtain ⟨c, seps, rfl⟩ := List.exists_cons_of_ne_nil hne
    have hc := htake c (Opens.head_mem h)
    rw [hseps c List.mem_cons_self] at hc
    cases hc

theorem Opens.of_word (h : m.Opens (w ++ rest)) (hne : w ≠ [])
    (hw : ∀ c ∈ w, isSeparator c = false) (hrest : Detached rest) :
    ((∃ k, m.rule = .ofKeyword k) ∨ m.rule = .word) ∧ m.length ≤ w.length := by
  rcases h.blanks_or with ⟨-, htake⟩ | ⟨hr, htake⟩
  · obtain ⟨c, w, rfl⟩ := List.exists_cons_of_ne_nil hne
    have hc := htake c (Opens.head_mem h)
    rw [hw c List.mem_cons_self] at hc
    cases hc
  · refine ⟨hr, le_length_of_forall_take (!isSeparator ·) h.length_le ?_ ?_⟩
    · intro c hc
      simpa using htake c hc
    · intro c hc
      simpa using hrest c hc

end Match

namespace Pattern
variable {p : Pattern}

theorem takes_of_reach? {n : Nat} (h : p.reach? cs = some n) :
    n ≤ cs.length ∧ p.Takes (cs.take n) := by
  cases p with
  | text letters =>
    obtain ⟨hfold, hn⟩ := Option.ite_none_right_eq_some.1 h
    obtain rfl := Option.some.inj hn
    have hlen := congrArg List.length hfold
    rw [List.length_map, List.length_map, List.length_take] at hlen
    exact ⟨by omega, hfold⟩
  | many kind =>
    obtain ⟨hne, hn⟩ := Option.ite_none_left_eq_some.1 h
    obtain rfl := Option.some.inj hn
    have htake : cs.take (cs.takeWhile kind).length = cs.takeWhile kind :=
      (List.prefix_iff_eq_take.1 (List.takeWhile_prefix kind)).symm
    rw [htake]
    refine ⟨(List.takeWhile_prefix kind).length_le, ?_, List.all_eq_true.1 List.all_takeWhile⟩
    exact fun hnil => hne (by rw [hnil]; rfl)

theorem le_reach?_of_takes {n : Nat} (hn : n ≤ cs.length) (h : p.Takes (cs.take n)) :
    ∃ m, p.reach? cs = some m ∧ n ≤ m := by
  cases p with
  | text letters =>
    have hlen := congrArg List.length h
    rw [List.length_map, List.length_map, List.length_take, Nat.min_eq_left hn] at hlen
    subst hlen
    exact ⟨_, if_pos h, Nat.le_refl _⟩
  | many kind =>
    rw [← List.takeWhile_append_dropWhile (p := kind) (l := cs)] at hn h
    have hle : n ≤ (cs.takeWhile kind).length := by
      refine le_length_of_forall_take kind hn h.2 fun c hc => ?_
      have := List.head?_dropWhile_not kind cs
      rw [hc] at this
      simpa using this
    have hpos : n ≠ 0 := by
      rintro rfl
      exact h.1 List.take_zero
    exact ⟨_, if_neg (by omega), hle⟩

end Pattern

namespace Match
variable {m n : Match} {ms : List Match}

theorem Beats.asymm (h : m.Beats n) : ¬ n.Beats m := by
  rw [Beats] at *
  omega

theorem not_beats_trans {k : Match} (h : ¬ k.Beats n) (h' : ¬ n.Beats m) : ¬ k.Beats m := by
  rw [Beats] at *
  omega

theorem best?_eq_none_iff : best? ms = none ↔ ms = [] := by
  cases ms with
  | nil => simp [best?]
  | cons m ms =>
    rw [best?]
    split
    · simp
    · split <;> simp

theorem mem_of_best? (h : best? ms = some m) : m ∈ ms ∧ ∀ n ∈ ms, ¬ n.Beats m := by
  induction ms generalizing m with
  | nil => cases h
  | cons n ms ih =>
    have hself : ¬ n.Beats n := fun h => h.asymm h
    rw [best?] at h
    cases hbest : best? ms with
    | none =>
      rw [hbest] at h
      obtain rfl := Option.some.inj h
      rw [best?_eq_none_iff.1 hbest]
      exact ⟨List.mem_cons_self, by simpa using hself⟩
    | some b =>
      obtain ⟨hb, hunbeaten⟩ := ih hbest
      simp only [hbest] at h
      by_cases hbeats : b.Beats n
      · rw [if_pos hbeats] at h
        obtain rfl := Option.some.inj h
        exact ⟨List.mem_cons_of_mem n hb, List.forall_mem_cons.2 ⟨hbeats.asymm, hunbeaten⟩⟩
      · rw [if_neg hbeats] at h
        obtain rfl := Option.some.inj h
        exact ⟨List.mem_cons_self, List.forall_mem_cons.2
          ⟨hself, fun k hk => not_beats_trans (hunbeaten k hk) hbeats⟩⟩

end Match

/-- To look at every rule and keep the best match is a choice of longest matches. -/
theorem picksLongest_longest? : PicksLongest Match.longest? := by
  have hcandidate : ∀ {cs : List Char} {n : Match}, n.Opens cs →
      ∃ m ∈ TokenRule.all.filterMap fun r => (r.pattern.reach? cs).map (Match.mk r),
        n.rule = m.rule ∧ n.length ≤ m.length := by
    intro cs n hn
    obtain ⟨k, hk, hle⟩ := Pattern.le_reach?_of_takes hn.length_le hn.takes
    exact ⟨⟨n.rule, k⟩, List.mem_filterMap.2 ⟨n.rule, hn.rule_mem, by rw [hk]; rfl⟩, rfl, hle⟩
  constructor
  · intro cs m hm
    obtain ⟨r, hr, hreach⟩ := List.mem_filterMap.1 (Match.mem_of_best? hm).1
    obtain ⟨n, hn, rfl⟩ := Option.map_eq_some_iff.1 hreach
    obtain ⟨hle, htakes⟩ := Pattern.takes_of_reach? hn
    exact ⟨hr, hle, htakes⟩
  · intro cs m hm n hn hbeats
    obtain ⟨k, hk, hrule, hle⟩ := hcandidate hn
    refine (Match.mem_of_best? hm).2 k hk ?_
    rw [Match.Beats, hrule] at hbeats
    rw [Match.Beats]
    omega
  · intro cs hm n hn
    obtain ⟨k, hk, -⟩ := hcandidate hn
    rw [Match.best?_eq_none_iff.1 hm] at hk
    cases hk

namespace PicksLongest
variable {m n : Match}

theorem exists_next (h : PicksLongest next) (hn : n.Opens cs) :
    ∃ m, next cs = some m ∧ m.Opens cs ∧ ¬ n.Beats m := by
  cases hm : next cs with
  | none => exact absurd hn (h.complete hm n)
  | some m => exact ⟨m, rfl, h.opens hm, h.unbeaten hm n hn⟩

theorem next_separators (h : PicksLongest next) (hne : seps ≠ [])
    (hseps : ∀ c ∈ seps, isSeparator c = true)
    (hrest : ∀ c, rest.head? = some c → isSeparator c = false) :
    ∃ m, next (seps ++ rest) = some m ∧ m.length = seps.length ∧ m.rule.token = none := by
  have hall : Match.Opens ⟨.blanks, seps.length⟩ (seps ++ rest) :=
    .of_takes (TokenRule.mem_all_iff.2 (.inl rfl)) ⟨hne, hseps⟩ rest
  obtain ⟨m, hm, hopens, hbeats⟩ := h.exists_next hall
  obtain ⟨hrule, hle⟩ := hopens.of_separators hne hseps hrest
  have hge : ¬ m.length < seps.length := fun hlt => hbeats (.inl hlt)
  exact ⟨m, hm, by omega, by rw [hrule]; rfl⟩

/-- A word is taken whole, as the keyword that it spells if it does. -/
theorem next_word (h : PicksLongest next) (hne : w ≠ []) (hw : ∀ c ∈ w, isSeparator c = false)
    (hrest : Detached rest) :
    ∃ m, next (w ++ rest) = some m ∧ m.length = w.length ∧
      m.rule.token = some (Token.ofWord w) := by
  have hall : Match.Opens ⟨.word, w.length⟩ (w ++ rest) :=
    .of_takes (TokenRule.mem_all_iff.2 (.inr (.inr rfl)))
      ⟨hne, fun c hc => by simpa using hw c hc⟩ rest
  obtain ⟨m, hm, hopens, hbeats⟩ := h.exists_next hall
  obtain ⟨hrule, hle⟩ := hopens.of_word hne hw hrest
  have hge : ¬ m.length < w.length := fun hlt => hbeats (.inl hlt)
  have hlen : m.length = w.length := by omega
  have htakes := hopens.takes
  rw [hlen, List.take_left] at htakes
  refine ⟨m, hm, hlen, ?_⟩
  rcases hrule with ⟨k, hrule⟩ | hrule
  · rw [hrule] at htakes ⊢
    exact congrArg some (Token.ofWord_eq_keyword_iff.2 (Pattern.takes_ofKeyword.1 htakes)).symm
  · rw [hrule]
    refine congrArg some (Token.ofWord_eq_word_iff.2 fun k hk => ?_).symm
    -- the rule of the keyword takes as much and weighs more
    have hkeyword : Match.Opens ⟨.ofKeyword k, w.length⟩ (w ++ rest) :=
      .of_takes (TokenRule.mem_all_iff.2 (.inr (.inl ⟨k, rfl⟩))) (Pattern.takes_ofKeyword.2 hk) rest
    refine h.unbeaten hm _ hkeyword (.inr ⟨hlen, ?_⟩)
    rw [hrule]
    exact k.two_le_length_text

end PicksLongest

theorem scan_taken (pos n : Nat) (cs : List Char) :
    scan next pos n cs = scan next (pos + byteLength (cs.take n)) 0 (cs.drop n) := by
  induction cs generalizing pos n with
  | nil => cases n <;> rfl
  | cons c cs ih =>
    cases n with
    | zero => rfl
    | succ n =>
      rw [scan, ih, List.take_succ_cons, List.drop_succ_cons, byteLength_cons, Nat.add_assoc]

theorem scan_next {m : Match} (hm : next (w ++ rest) = some m) (hlen : m.length = w.length)
    (hne : w ≠ []) (pos : Nat) :
    scan next pos 0 (w ++ rest) = (scan next (pos + byteLength w) 0 rest).map
      (m.rule.token.toList.map (⟨·, ⟨pos, pos + byteLength w⟩⟩) ++ ·) := by
  have hlexemes : m.lexemes pos (w ++ rest) =
      m.rule.token.toList.map (⟨·, ⟨pos, pos + byteLength w⟩⟩) := by
    rw [Match.lexemes, hlen, List.take_left]
  obtain ⟨c, w, rfl⟩ := List.exists_cons_of_ne_nil hne
  have hlast : m.length - 1 = w.length := by
    rw [hlen, List.length_cons, Nat.add_sub_cancel]
  rw [← hlexemes]
  rw [List.cons_append] at hm ⊢
  simp only [scan, hm, hlast]
  rw [scan_taken, List.take_left, List.drop_left, byteLength_cons, Nat.add_assoc]

namespace PicksLongest

theorem scan_separators (h : PicksLongest next) (hseps : ∀ c ∈ seps, isSeparator c = true)
    (hrest : ∀ c, rest.head? = some c → isSeparator c = false) (pos : Nat) :
    scan next pos 0 (seps ++ rest) = scan next (pos + byteLength seps) 0 rest := by
  by_cases hne : seps = []
  · subst hne
    rfl
  · obtain ⟨m, hm, hlen, htoken⟩ := h.next_separators hne hseps hrest
    rw [scan_next hm hlen hne, htoken]
    cases scan next (pos + byteLength seps) 0 rest <;> rfl

theorem scan_word (h : PicksLongest next) (hne : w ≠ []) (hw : ∀ c ∈ w, isSeparator c = false)
    (hrest : Detached rest) (pos : Nat) :
    scan next pos 0 (w ++ rest) =
      (scan next (pos + byteLength w) 0 rest).map (Run.lexeme ⟨pos, w⟩ :: ·) := by
  obtain ⟨m, hm, hlen, htoken⟩ := h.next_word hne hw hrest
  rw [scan_next hm hlen hne, htoken]
  rfl

/-- The tokens of a text are those of its runs. -/
theorem scan_eq (h : PicksLongest next) (pos : Nat) (cs : List Char) :
    scan next pos 0 cs = .ok ((runs pos cs).map Run.lexeme) := by
  generalize hruns : runs pos cs = rs
  induction rs generalizing pos cs with
  | nil =>
    rw [← List.append_nil cs,
      h.scan_separators (separators_of_runs_eq_nil hruns) (by simp)]
    rfl
  | cons r rs ih =>
    obtain ⟨seps, rest, rfl, hseps, hne, hw, hrest, hstart, htail⟩ := exists_of_runs_eq_cons hruns
    have hhead : ∀ c, (r.text ++ rest).head? = some c → isSeparator c = false := by
      obtain ⟨c, text, htext⟩ := List.exists_cons_of_ne_nil hne
      rw [htext] at hw ⊢
      intro d hd
      cases hd
      exact hw c List.mem_cons_self
    rw [List.append_assoc, h.scan_separators hseps hhead, h.scan_word hne hw hrest,
      ih _ _ htail, ← hstart]
    rfl

theorem tokenize_eq (h : PicksLongest next) (line : String) :
    tokenize next line = .ok (lex line) := h.scan_eq 0 line.toList

end PicksLongest
end Daybook
