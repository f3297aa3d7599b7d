import Daybook.Proofs.Command.Readings

/-!
The notes that readings leave, and how far a reading looks. Main statement: all ways of reading are
local, that is, tokens beyond the furthest place that was reached cannot change what is read.
-/
namespace Daybook

namespace Reading
variable {α β : Type} {b c : List Token} {i j m : Nat} {n : Note}

theorem not_mem_notes_pure {a : α} : n ∉ ((pure a : Reading α) b i).2 := List.not_mem_nil

theorem mem_notes_bind_iff {p : Reading α} {f : α → Reading β} :
    n ∈ ((p >>= f) b i).2 ↔
      n ∈ (p b i).2 ∨ ∃ a k, (p b i).1 = some (a, k) ∧ n ∈ (f a b k).2 := by
  simp only [bind]
  split
  · rename_i h
    simp [h]
  · rename_i a k ns h
    simp only [h, List.mem_append, Option.some.injEq, Prod.mk.injEq]
    refine or_congr_right ⟨fun hn => ⟨a, k, ⟨rfl, rfl⟩, hn⟩, fun hn => ?_⟩
    obtain ⟨_, _, ⟨rfl, rfl⟩, hn⟩ := hn
    exact hn

theorem mem_notes_keyword_iff {k : Keyword} :
    n ∈ (keyword k b i).2 ↔ b[i]? ≠ some (.keyword k) ∧ n = ⟨i, .keyword k⟩ := by
  unfold keyword
  split <;> simp_all

theorem mem_notes_single_iff {e : Expectation} :
    n ∈ (single e b i).2 ↔ b.length ≤ i ∧ n = ⟨i, e⟩ := by
  by_cases h : i < b.length
  · simp [single, h, Nat.not_le.2 h]
  · simp [single, h, Nat.not_lt.1 h]

theorem mem_notes_rest_iff {e : Expectation} :
    n ∈ (rest e b i).2 ↔ b.length ≤ i ∧ n = ⟨i, e⟩ := by
  by_cases h : i < b.length
  · simp [rest, h, Nat.not_le.2 h]
  · simp [rest, h, Nat.not_lt.1 h]

theorem mem_notes_finish_iff : n ∈ (finish b i).2 ↔ i < b.length ∧ n = ⟨i, .endOfInput⟩ := by
  by_cases h : i < b.length <;> simp [finish, h]

theorem mem_notes_optional_iff {p : Reading α} : n ∈ (optional p b i).2 ↔ n ∈ (p b i).2 := by
  unfold optional
  split <;> rename_i h <;> rw [h]

theorem mem_notes_orElse_iff {p q : Reading α} :
    n ∈ (orElse p q b i).2 ↔ n ∈ (p b i).2 ∨ (p b i).1 = none ∧ n ∈ (q b i).2 := by
  unfold orElse
  split <;> rename_i h <;> simp [h]

theorem mem_notes_nameUntil {stops : List Keyword} (h : n ∈ (nameUntil stops b i).2) :
    n = ⟨i, .eventName⟩ ∨ (nameUntil stops b i).1 = some (⟨i, n.place⟩, n.place) ∧
      (n.expected = .somethingElse ∨ n.expected = .anything) := by
  simp only [nameUntil] at h ⊢
  split at h
  · exact .inl (List.mem_singleton.1 h)
  · rename_i hlen
    obtain rfl := List.mem_singleton.1 h
    rw [if_neg hlen]
    refine .inr ⟨rfl, ?_⟩
    dsimp only
    split
    · exact .inl rfl
    · exact .inr rfl

def Within (p : Reading α) (b : List Token) (i m : Nat) : Prop :=
  (∀ n ∈ (p b i).2, n.place < m) ∧ ∀ r, (p b i).1 = some r → r.2 < m

/-- A reading that looks no further than it says. -/
structure Local (p : Reading α) : Prop where
  begins : ∀ {b i m}, Within p b i m → i < m
  agrees : ∀ {b c i m}, i < m → m ≤ b.length → c.take m = b.take m → Within p b i m →
    (p c i).1 = (p b i).1

theorem getElem?_eq_of_take_eq {l : List Token} (h : l.take m = b.take m) (hi : i < m) :
    l[i]? = b[i]? := by
  rw [← List.getElem?_take_of_lt hi, h, List.getElem?_take_of_lt hi]

theorem le_length_of_take_eq (hm : m ≤ b.length) (h : c.take m = b.take m) : m ≤ c.length := by
  have := congrArg List.length h
  rw [List.length_take, List.length_take] at this
  omega

theorem Local.pure (a : α) : Local (Pure.pure a : Reading α) :=
  ⟨fun h => h.2 _ rfl, fun _ _ _ _ => rfl⟩

theorem Local.keyword (k : Keyword) : Local (keyword k) := by
  constructor
  · intro b i m h
    by_cases hk : b[i]? = some (.keyword k)
    · exact Nat.lt_of_succ_lt (h.2 ((), i + 1) (keyword_eq_some_iff.2 ⟨hk, rfl⟩))
    · exact h.1 _ (mem_notes_keyword_iff.2 ⟨hk, rfl⟩)
  · intro b c i m hi hm hc h
    rw [Reading.keyword, Reading.keyword, getElem?_eq_of_take_eq hc hi]

theorem Local.single (e : Expectation) : Local (single e) := by
  constructor
  · intro b i m h
    by_cases hi : i < b.length
    · exact Nat.lt_of_succ_lt (h.2 (⟨i, i + 1⟩, i + 1) (single_eq_some_iff.2 ⟨hi, rfl, rfl⟩))
    · exact h.1 _ (mem_notes_single_iff.2 ⟨Nat.not_lt.1 hi, rfl⟩)
  · intro b c i m hi hm hc h
    have hlen := le_length_of_take_eq hm hc
    rw [Reading.single, Reading.single, if_pos (by omega), if_pos (by omega)]

theorem Local.rest (e : Expectation) : Local (rest e) := by
  constructor
  · intro b i m h
    by_cases hi : i < b.length
    · exact Nat.lt_trans hi (h.2 (⟨i, b.length⟩, b.length) (rest_eq_some_iff.2 ⟨hi, rfl, rfl⟩))
    · exact h.1 _ (mem_notes_rest_iff.2 ⟨Nat.not_lt.1 hi, rfl⟩)
  · intro b c i m hi hm hc h
    have hlast := h.2 (⟨i, b.length⟩, b.length) (rest_eq_some_iff.2 ⟨by omega, rfl, rfl⟩)
    exact absurd hlast (Nat.not_lt.2 hm)

theorem Local.finish : Local finish := by
  constructor
  · intro b i m h
    by_cases hi : i < b.length
    · exact h.1 _ (mem_notes_finish_iff.2 ⟨hi, rfl⟩)
    · exact h.2 ((), i) (finish_eq_some_iff.2 ⟨Nat.not_lt.1 hi, rfl⟩)
  · intro b c i m hi hm hc h
    have hlen := le_length_of_take_eq hm hc
    rw [Reading.finish, Reading.finish, if_pos (by omega), if_pos (by omega)]

theorem Local.nameUntil (stops : List Keyword) : Local (nameUntil stops) := by
  constructor
  · intro b i m h
    simp only [Within, Reading.nameUntil] at h
    split at h
    · exact h.1 _ (List.mem_singleton_self _)
    · exact Nat.lt_of_le_of_lt (Nat.le_add_right ..) (h.2 _ rfl)
  · intro b c i m hi hm hc h
    generalize hn : ((b.drop i).takeWhile fun t =>
      !(stops.map Token.keyword).contains t).length = n
    have hreach : i + n < m := by
      simp only [Within, Reading.nameUntil, hn] at h
      split at h
      · omega
      · exact h.2 _ rfl
    -- the name in `b` ends at a stop keyword before `m`, so that in `c` it ends there too
    have hn' : ((c.drop i).takeWhile fun t =>
        !(stops.map Token.keyword).contains t).length = n := by
      rw [length_name_eq_iff] at hn ⊢
      rw [getElem?_eq_of_take_eq hc hreach]
      refine ⟨fun k hik hkn => ?_, hn.2⟩
      rw [getElem?_eq_of_take_eq hc (by omega)]
      exact hn.1 k hik hkn
    simp only [Reading.nameUntil, hn, hn']
    split <;> rfl

theorem Local.bind {p : Reading α} {f : α → Reading β} (hp : Local p) (hf : ∀ a, Local (f a)) :
    Local (p >>= f) := by
  -- the second reading stays before the place, so it began before it, so the first stayed too
  have hfirst : ∀ {b i m}, Within (p >>= f) b i m → Within p b i m := by
    intro b i m h
    refine ⟨fun n hn => h.1 n (mem_notes_bind_iff.2 (.inl hn)), fun r hr => ?_⟩
    refine (hf r.1).begins (b := b) ⟨fun n hn => ?_, fun s hs => ?_⟩
    · exact h.1 n (mem_notes_bind_iff.2 (.inr ⟨r.1, r.2, hr, hn⟩))
    · exact h.2 s (bind_eq_some_iff.2 ⟨r.1, r.2, hr, hs⟩)
  constructor
  · intro b i m h
    exact hp.begins (hfirst h)
  · intro b c i m hi hm hc h
    have hsame := hp.agrees hi hm hc (hfirst h)
    ext ⟨d, j⟩
    rw [bind_eq_some_iff, bind_eq_some_iff, hsame]
    refine exists_congr fun a => exists_congr fun k => and_congr_right fun ha => ?_
    have hsecond : Within (f a) b k m :=
      ⟨fun n hn => h.1 n (mem_notes_bind_iff.2 (.inr ⟨a, k, ha, hn⟩)),
        fun s hs => h.2 s (bind_eq_some_iff.2 ⟨a, k, ha, hs⟩)⟩
    rw [(hf a).agrees ((hf a).begins hsecond) hm hc hsecond]

theorem Local.optional {p : Reading α} (hp : Local p) : Local (optional p) := by
  have hinner : ∀ {b i m}, Within (Reading.optional p) b i m → i < m → Within p b i m := by
    intro b i m h hi
    refine ⟨fun n hn => h.1 n (mem_notes_optional_iff.2 hn), fun r hr => ?_⟩
    exact h.2 (some r.1, r.2) (optional_eq_some_iff.2 (.inl ⟨r.1, hr, rfl⟩))
  constructor
  · intro b i m h
    cases hb : (p b i).1 with
    | none => exact h.2 (none, i) (optional_eq_some_iff.2 (.inr ⟨hb, rfl, rfl⟩))
    | some r =>
      refine hp.begins (b := b) ⟨fun n hn => h.1 n (mem_notes_optional_iff.2 hn), fun s hs => ?_⟩
      exact h.2 (some s.1, s.2) (optional_eq_some_iff.2 (.inl ⟨s.1, hs, rfl⟩))
  · intro b c i m hi hm hc h
    have hsame := hp.agrees hi hm hc (hinner h hi)
    ext ⟨a, j⟩
    simp only [optional_eq_some_iff, hsame]

theorem Local.orElse {p q : Reading α} (hp : Local p) (hq : Local q) : Local (orElse p q) := by
  have hfirst : ∀ {b i m}, Within (Reading.orElse p q) b i m → Within p b i m := by
    intro b i m h
    exact ⟨fun n hn => h.1 n (mem_notes_orElse_iff.2 (.inl hn)),
      fun r hr => h.2 r (orElse_eq_some_iff.2 (.inl hr))⟩
  constructor
  · intro b i m h
    exact hp.begins (hfirst h)
  · intro b c i m hi hm hc h
    have hsame := hp.agrees hi hm hc (hfirst h)
    ext r
    rw [orElse_eq_some_iff, orElse_eq_some_iff, hsame]
    refine or_congr_right (and_congr_right fun hnone => ?_)
    rw [hq.agrees hi hm hc]
    exact ⟨fun n hn => h.1 n (mem_notes_orElse_iff.2 (.inr ⟨hnone, hn⟩)),
      fun r hr => h.2 r (orElse_eq_some_iff.2 (.inr ⟨hnone, hr⟩))⟩

end Reading

namespace Misfit
variable {b : List Token} {notes : List Note} {n : Note}

theorem le_foldl_max (l : List Nat) (top : Nat) :
    top ≤ l.foldl max top ∧ (∀ x ∈ l, x ≤ l.foldl max top) ∧
      (l.foldl max top = top ∨ l.foldl max top ∈ l) := by
  induction l generalizing top with
  | nil => simp
  | cons y l ih =>
    obtain ⟨htop, hall, hin⟩ := ih (max top y)
    rw [List.foldl_cons]
    refine ⟨by omega, fun x hx => ?_, ?_⟩
    · cases hx with
      | head => omega
      | tail _ hx => exact hall x hx
    · cases hin with
      | inl hin =>
        rw [hin, List.mem_cons]
        omega
      | inr hin => exact .inr (List.mem_cons_of_mem y hin)

theorem place_le (h : n ∈ notes) : n.place ≤ (ofNotes b notes).place :=
  (le_foldl_max _ 0).2.1 _ (List.mem_map_of_mem h)

theorem mem_expected_iff {e : Expectation} :
    e ∈ (ofNotes b notes).expected ↔ ⟨(ofNotes b notes).place, e⟩ ∈ notes := by
  simp only [ofNotes, List.mem_eraseDups, List.mem_map, List.mem_filter, beq_iff_eq]
  constructor
  · intro h
    obtain ⟨n, ⟨hn, hplace⟩, rfl⟩ := h
    exact hplace ▸ hn
  · intro h
    exact ⟨_, ⟨h, rfl⟩, rfl⟩

theorem expected_ne_nil (h : notes ≠ []) : (ofNotes b notes).expected ≠ [] := by
  obtain ⟨n, notes', rfl⟩ := List.exists_cons_of_ne_nil h
  have hat : ∃ k ∈ n :: notes', k.place = (ofNotes b (n :: notes')).place := by
    cases (le_foldl_max ((n :: notes').map Note.place) 0).2.2 with
    | inl hzero =>
      have hn := place_le (b := b) (List.mem_cons_self (a := n) (l := notes'))
      have htop : (ofNotes b (n :: notes')).place = 0 := hzero
      exact ⟨n, List.mem_cons_self, by omega⟩
    | inr hin => exact List.mem_map.1 hin
  obtain ⟨k, hk, hplace⟩ := hat
  have hexpected : k.expected ∈ (ofNotes b (n :: notes')).expected := by
    rw [mem_expected_iff, ← hplace]
    exact hk
  exact List.ne_nil_of_mem hexpected

end Misfit
end Daybook
