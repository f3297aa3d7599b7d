import Daybook.Command.Outline
import Daybook.Proofs.Command.Readings

/-!
The clause grammar, told by the places of keywords. Main statement: the tokens after a verb are
read exactly if they have a shape of that verb.
-/
namespace Daybook

theorem drop_eq_cons_iff {α : Type} {l r : List α} {i : Nat} {a : α} :
    l.drop i = a :: r ↔ l[i]? = some a ∧ l.drop (i + 1) = r := by
  constructor
  · intro h
    have hi : l[i]? = some a := by
      have := congrArg (·[0]?) h
      simpa using this
    exact ⟨hi, by rw [← List.drop_drop, h, List.drop_succ_cons, List.drop_zero]⟩
  · intro h
    obtain ⟨hi, rfl⟩ := h
    obtain ⟨hl, rfl⟩ := List.getElem?_eq_some_iff.1 hi
    exact List.drop_eq_getElem_cons hl

namespace Outline
open Reading
variable {b : List Token} {i j lo : Nat} {stops : List Keyword}

def FirstAt (b : List Token) (stops : List Keyword) (lo i : Nat) : Prop :=
  lo ≤ i ∧ (∃ k ∈ stops, b[i]? = some (.keyword k)) ∧
    ∀ m, lo ≤ m → m < i → ∀ k ∈ stops, b[m]? ≠ some (.keyword k)

def TimedAt (b : List Token) (f : Nat) : Prop :=
  FirstAt b [.from_] 0 f ∧ 1 ≤ f ∧ b[f + 2]? = some (.keyword .to_) ∧ f + 3 < b.length

inductive RepeatsShape (i : Nat) : List Token → Option Repeats → Prop
  | none : RepeatsShape i [] none
  | count (x y : Token) :
      RepeatsShape i [.keyword .repeats, x, .keyword .for_, y, .keyword .times]
        (some ⟨⟨i + 1, i + 2⟩, .count ⟨i + 3, i + 4⟩⟩)
  | bound (x y : Token) :
      RepeatsShape i [.keyword .repeats, x, .keyword .until_, y]
        (some ⟨⟨i + 1, i + 2⟩, .bound ⟨i + 3, i + 4⟩⟩)

inductive Shape (b : List Token) : Verb → Outline → Prop
  | createTimed {f r} : TimedAt b f → RepeatsShape (f + 4) (b.drop (f + 4)) r →
      Shape b .createEvent (.createTimed ⟨0, f⟩ ⟨f + 1, f + 2⟩ ⟨f + 3, f + 4⟩ r)
  | createAllDay {o r} : (∀ f, ¬ TimedAt b f) → FirstAt b [.on_] 0 o → 1 ≤ o → o + 1 < b.length →
      RepeatsShape (o + 2) (b.drop (o + 2)) r →
      Shape b .createEvent (.createAllDay ⟨0, o⟩ ⟨o + 1, o + 2⟩ r)
  | editSingle {k x y v} : FirstAt b [.from_, .with_] 1 k → 2 ≤ k →
      b.drop k = .keyword .from_ :: x :: .keyword .to_ :: y :: .keyword .with_ :: v → v ≠ [] →
      Shape b .editEvent
        (.editSingle ⟨0, 1⟩ ⟨1, k⟩ ⟨k + 1, k + 2⟩ ⟨k + 3, k + 4⟩ ⟨k + 5, b.length⟩)
  | editFrom {k x v} : FirstAt b [.from_, .with_] 1 k → 2 ≤ k →
      b.drop k = .keyword .from_ :: x :: .keyword .with_ :: v → v ≠ [] →
      Shape b .editEvents (.editMany ⟨0, 1⟩ ⟨1, k⟩ (some ⟨k + 1, k + 2⟩) ⟨k + 3, b.length⟩)
  | editNamed {k v} : FirstAt b [.from_, .with_] 1 k → 2 ≤ k →
      b.drop k = .keyword .with_ :: v → v ≠ [] →
      Shape b .editEvents (.editMany ⟨0, 1⟩ ⟨1, k⟩ none ⟨k + 1, b.length⟩)
  | printOn {x} : b = [x] → Shape b .printOn (.printOn ⟨0, 1⟩)
  | printRange {x y} : b = [x, .keyword .to_, y] →
      Shape b .printFrom (.printRange ⟨0, 1⟩ ⟨2, 3⟩)
  | exportCal {x l} : b = x :: l → Shape b .exportCal (.exportTo .plain ⟨0, 1⟩)
  | exportGoogle {x l} : b = x :: l → Shape b .exportGoogle (.exportTo .google ⟨0, 1⟩)
  | showStatus {x} : b = [x] → Shape b .showStatus (.showStatus ⟨0, 1⟩)

theorem nameUntil_keyword_iff {k : Keyword} {s : Span} (hk : k ∈ stops) :
    (nameUntil stops b i).1 = some (s, j) ∧ b[j]? = some (.keyword k) ↔
      ⟨i, j⟩ = s ∧ i < j ∧ FirstAt b stops i j ∧ b[j]? = some (.keyword k) := by
  rw [nameUntil_eq_some_iff]
  constructor
  · intro h
    obtain ⟨⟨rfl, hij, hgo, -⟩, hj⟩ := h
    refine ⟨rfl, hij, ⟨Nat.le_of_lt hij, ⟨k, hk, hj⟩, fun m hm hmj l hl h => ?_⟩, hj⟩
    obtain ⟨t, ht, hne⟩ := hgo m hm hmj
    exact hne l hl (Option.some.inj (ht.symm.trans h))
  · intro h
    obtain ⟨rfl, hij, ⟨-, -, hgo⟩, hj⟩ := h
    refine ⟨⟨rfl, hij, fun m hm hmj => ?_, fun t ht => ?_⟩, hj⟩
    · have hlen := (List.getElem?_eq_some_iff.1 hj).1
      refine ⟨b[m], List.getElem?_eq_getElem (by omega), fun l hl h => ?_⟩
      exact hgo m hm hmj l hl (h ▸ List.getElem?_eq_getElem (by omega))
    · exact ⟨k, hk, Option.some.inj (ht.symm.trans hj)⟩

theorem repeatsClause_eq_some_iff {r : Repeats} :
    (repeatsClause b i).1 = some (r, j) ↔
      b[i]? = some (.keyword .repeats) ∧ i + 3 < b.length ∧
        (b[i + 2]? = some (.keyword .for_) ∧ b[i + 4]? = some (.keyword .times) ∧
            r = ⟨⟨i + 1, i + 2⟩, .count ⟨i + 3, i + 4⟩⟩ ∧ j = i + 5 ∨
          b[i + 2]? = some (.keyword .until_) ∧
            r = ⟨⟨i + 1, i + 2⟩, .bound ⟨i + 3, i + 4⟩⟩ ∧ j = i + 4) := by
  unfold repeatsClause
  simp only [bind_eq_some_iff, keyword_eq_some_iff, single_eq_some_iff, pure_eq_some_iff,
    orElse_eq_some_iff]
  constructor
  · intro h
    obtain ⟨_, _, ⟨hr, rfl⟩, _, _, ⟨hi, rfl, rfl⟩, e, _, he, rfl, rfl⟩ := h
    cases he with
    | inl he =>
      obtain ⟨_, _, ⟨hf, rfl⟩, _, _, ⟨hl, rfl, rfl⟩, _, _, ⟨ht, rfl⟩, rfl, rfl⟩ := he
      exact ⟨hr, hl, .inl ⟨hf, ht, rfl, rfl⟩⟩
    | inr he =>
      obtain ⟨-, _, _, ⟨hu, rfl⟩, _, _, ⟨hl, rfl, rfl⟩, rfl, rfl⟩ := he
      exact ⟨hr, hl, .inr ⟨hu, rfl, rfl⟩⟩
  · intro h
    obtain ⟨hr, hl, ⟨hf, ht, rfl, rfl⟩ | ⟨hu, rfl, rfl⟩⟩ := h
    · refine ⟨(), _, ⟨hr, rfl⟩, _, _, ⟨by omega, rfl, rfl⟩, _, _, .inl ?_, rfl, rfl⟩
      exact ⟨(), _, ⟨hf, rfl⟩, _, _, ⟨hl, rfl, rfl⟩, (), _, ⟨ht, rfl⟩, rfl, rfl⟩
    · refine ⟨(), _, ⟨hr, rfl⟩, _, _, ⟨by omega, rfl, rfl⟩, _, _, .inr ⟨?_, ?_⟩, rfl, rfl⟩
      · rw [Option.eq_none_iff_forall_ne_some]
        rintro ⟨e, k⟩ he
        simp only [bind_eq_some_iff, keyword_eq_some_iff] at he
        obtain ⟨_, _, ⟨hf, -⟩, -⟩ := he
        cases hf.symm.trans hu
      · exact ⟨(), _, ⟨hu, rfl⟩, _, _, ⟨hl, rfl, rfl⟩, rfl, rfl⟩

theorem optional_repeatsClause_ne_none : (optional repeatsClause b i).1 ≠ none := by
  unfold Reading.optional
  split <;> simp

/-- What is left is at most one repeats clause exactly if reading it, when it is there, reaches the
end. -/
theorem optional_repeatsClause_iff {r : Option Repeats} (hi : i ≤ b.length) :
    (∃ j, (optional repeatsClause b i).1 = some (r, j) ∧ b.length ≤ j) ↔
      RepeatsShape i (b.drop i) r := by
  simp only [optional_eq_some_iff]
  constructor
  · intro h
    obtain ⟨j, ⟨c, hc, rfl⟩ | ⟨-, rfl, rfl⟩, hj⟩ := h
    · obtain ⟨hr, hl, hending⟩ := repeatsClause_eq_some_iff.1 hc
      have hi1 : i + 1 < b.length := by omega
      obtain ⟨hf, ht, rfl, rfl⟩ | ⟨hu, rfl, rfl⟩ := hending
      · have hd : b.drop i = [.keyword .repeats, b[i + 1], .keyword .for_, b[i + 3],
            .keyword .times] := by
          simp only [drop_eq_cons_iff, hr, hf, ht, List.getElem?_eq_getElem hl, true_and,
            List.drop_eq_nil_iff, List.getElem?_eq_getElem hi1]
          omega
        rw [hd]
        exact .count _ _
      · have hd : b.drop i = [.keyword .repeats, b[i + 1], .keyword .until_, b[i + 3]] := by
          simp only [drop_eq_cons_iff, hr, hu, List.getElem?_eq_getElem hl, true_and,
            List.drop_eq_nil_iff, List.getElem?_eq_getElem hi1]
          omega
        rw [hd]
        exact .bound _ _
    · rw [List.drop_eq_nil_iff.2 hj]
      exact .none
  · intro h
    generalize hd : b.drop i = l at h
    cases h with
    | none =>
      have hl := List.drop_eq_nil_iff.1 hd
      refine ⟨i, .inr ⟨?_, rfl, rfl⟩, hl⟩
      rw [Option.eq_none_iff_forall_ne_some]
      rintro ⟨c, j⟩ hc
      have := (repeatsClause_eq_some_iff.1 hc).2.1
      omega
    | count x y =>
      simp only [drop_eq_cons_iff, List.drop_eq_nil_iff] at hd
      obtain ⟨hr, hx, hf, hy, ht, hl⟩ := hd
      have hlen := (List.getElem?_eq_some_iff.1 hy).1
      exact ⟨i + 5, .inl ⟨_, repeatsClause_eq_some_iff.2
        ⟨hr, hlen, .inl ⟨hf, ht, rfl, rfl⟩⟩, rfl⟩, hl⟩
    | bound x y =>
      simp only [drop_eq_cons_iff, List.drop_eq_nil_iff] at hd
      obtain ⟨hr, hx, hu, hy, hl⟩ := hd
      have hlen := (List.getElem?_eq_some_iff.1 hy).1
      exact ⟨i + 4, .inl ⟨_, repeatsClause_eq_some_iff.2
        ⟨hr, hlen, .inr ⟨hu, rfl, rfl⟩⟩, rfl⟩, hl⟩

theorem timed_eq_some_iff {o : Outline} :
    (timed b 0).1 = some (o, j) ↔
      ∃ f r, TimedAt b f ∧ o = .createTimed ⟨0, f⟩ ⟨f + 1, f + 2⟩ ⟨f + 3, f + 4⟩ r ∧
        (optional repeatsClause b (f + 4)).1 = some (r, j) := by
  unfold timed
  simp only [bind_eq_some_iff, keyword_eq_some_iff, single_eq_some_iff, pure_eq_some_iff]
  constructor
  · intro h
    obtain ⟨_, f, hn, _, _, ⟨hf, rfl⟩, _, _, ⟨-, rfl, rfl⟩, _, _, ⟨ht, rfl⟩, _, _,
      ⟨hl, rfl, rfl⟩, r, _, hr, rfl, rfl⟩ := h
    obtain ⟨rfl, hpos, hfirst, -⟩ := (nameUntil_keyword_iff (by simp)).1 ⟨hn, hf⟩
    exact ⟨f, r, ⟨hfirst, hpos, ht, hl⟩, rfl, hr⟩
  · intro h
    obtain ⟨f, r, ⟨hfirst, hpos, ht, hl⟩, rfl, hr⟩ := h
    have hf : b[f]? = some (.keyword .from_) := by simpa using hfirst.2.1
    have hn := (nameUntil_keyword_iff (i := 0) (s := ⟨0, f⟩) (by simp)).2 ⟨rfl, hpos, hfirst, hf⟩
    exact ⟨_, f, hn.1, (), _, ⟨hf, rfl⟩, _, _, ⟨by omega, rfl, rfl⟩, (), _, ⟨ht, rfl⟩, _, _,
      ⟨hl, rfl, rfl⟩, r, _, hr, rfl, rfl⟩

theorem timed_eq_none_iff : (timed b 0).1 = none ↔ ∀ f, ¬ TimedAt b f := by
  rw [Option.eq_none_iff_forall_ne_some]
  constructor
  · intro h f hf
    obtain ⟨⟨r, j⟩, hr⟩ := Option.ne_none_iff_exists'.1
      (optional_repeatsClause_ne_none (b := b) (i := f + 4))
    exact h (_, j) (timed_eq_some_iff.2 ⟨f, r, hf, rfl, hr⟩)
  · rintro h ⟨o, j⟩ ho
    obtain ⟨f, r, hf, -⟩ := timed_eq_some_iff.1 ho
    exact h f hf

theorem allDay_eq_some_iff {o : Outline} :
    (allDay b 0).1 = some (o, j) ↔
      ∃ n r, FirstAt b [.on_] 0 n ∧ 1 ≤ n ∧ n + 1 < b.length ∧
        o = .createAllDay ⟨0, n⟩ ⟨n + 1, n + 2⟩ r ∧
        (optional repeatsClause b (n + 2)).1 = some (r, j) := by
  unfold allDay
  simp only [bind_eq_some_iff, keyword_eq_some_iff, single_eq_some_iff, pure_eq_some_iff]
  constructor
  · intro h
    obtain ⟨_, n, hn, _, _, ⟨ho, rfl⟩, _, _, ⟨hl, rfl, rfl⟩, r, _, hr, rfl, rfl⟩ := h
    obtain ⟨rfl, hpos, hfirst, -⟩ := (nameUntil_keyword_iff (by simp)).1 ⟨hn, ho⟩
    exact ⟨n, r, hfirst, hpos, hl, rfl, hr⟩
  · intro h
    obtain ⟨n, r, hfirst, hpos, hl, rfl, hr⟩ := h
    have ho : b[n]? = some (.keyword .on_) := by simpa using hfirst.2.1
    have hn := (nameUntil_keyword_iff (i := 0) (s := ⟨0, n⟩) (by simp)).2 ⟨rfl, hpos, hfirst, ho⟩
    exact ⟨_, n, hn.1, (), _, ⟨ho, rfl⟩, _, _, ⟨hl, rfl, rfl⟩, r, _, hr, rfl, rfl⟩

theorem run_create_iff {o : Outline} :
    create.run b = .ok o ↔ Shape b .createEvent o := by
  unfold create
  simp only [run_eq_ok_iff, bind_eq_some_iff, orElse_eq_some_iff, finish_eq_some_iff,
    pure_eq_some_iff]
  constructor
  · intro h
    obtain ⟨_, o, j, ho, _, _, ⟨hj, rfl⟩, rfl, rfl⟩ := h
    cases ho with
    | inl ho =>
      obtain ⟨f, r, hf, rfl, hr⟩ := timed_eq_some_iff.1 ho
      have hl := hf.2.2.2
      exact .createTimed hf ((optional_repeatsClause_iff (by omega)).1 ⟨j, hr, hj⟩)
    | inr ho =>
      obtain ⟨n, r, hfirst, hpos, hl, rfl, hr⟩ := allDay_eq_some_iff.1 ho.2
      exact .createAllDay (timed_eq_none_iff.1 ho.1) hfirst hpos hl
        ((optional_repeatsClause_iff (by omega)).1 ⟨j, hr, hj⟩)
  · intro h
    cases h with
    | createTimed hf hr =>
      have hl := hf.2.2.2
      obtain ⟨j, hr, hj⟩ := (optional_repeatsClause_iff (by omega)).2 hr
      exact ⟨j, _, j, .inl (timed_eq_some_iff.2 ⟨_, _, hf, rfl, hr⟩), (), j, ⟨hj, rfl⟩, rfl, rfl⟩
    | createAllDay hno hfirst hpos hl hr =>
      obtain ⟨j, hr, hj⟩ := (optional_repeatsClause_iff (by omega)).2 hr
      exact ⟨j, _, j, .inr ⟨timed_eq_none_iff.2 hno,
        allDay_eq_some_iff.2 ⟨_, _, hfirst, hpos, hl, rfl, hr⟩⟩, (), j, ⟨hj, rfl⟩, rfl, rfl⟩

theorem run_singleEdit_iff {o : Outline} :
    singleEdit.run b = .ok o ↔ Shape b .editEvent o := by
  unfold singleEdit
  simp only [run_eq_ok_iff, bind_eq_some_iff, keyword_eq_some_iff, single_eq_some_iff,
    rest_eq_some_iff, pure_eq_some_iff]
  constructor
  · intro h
    obtain ⟨_, _, _, ⟨-, rfl, rfl⟩, _, k, hn, _, _, ⟨hf, rfl⟩, _, _, ⟨hx, rfl, rfl⟩, _, _,
      ⟨ht, rfl⟩, _, _, ⟨hy, rfl, rfl⟩, _, _, ⟨hw, rfl⟩, _, _, ⟨hv, rfl, rfl⟩, rfl, rfl⟩ := h
    obtain ⟨rfl, hk, hfirst, -⟩ := (nameUntil_keyword_iff (by simp)).1 ⟨hn, hf⟩
    refine .editSingle (v := b.drop (k + 5)) hfirst hk (x := b[k + 1]) (y := b[k + 3]) ?_ ?_
    · simp only [drop_eq_cons_iff, hf, ht, hw, true_and, and_true]
      exact ⟨List.getElem?_eq_getElem hx, List.getElem?_eq_getElem hy⟩
    · rw [ne_eq, List.drop_eq_nil_iff]
      omega
  · intro h
    cases h with
    | editSingle hfirst hk hd hv =>
      rename_i k x y v
      simp only [drop_eq_cons_iff] at hd
      obtain ⟨hf, hx, ht, hy, hw, rfl⟩ := hd
      rw [ne_eq, List.drop_eq_nil_iff] at hv
      have hn := (nameUntil_keyword_iff (i := 1) (s := ⟨1, k⟩) (by simp)).2 ⟨rfl, hk, hfirst, hf⟩
      exact ⟨_, _, _, ⟨by omega, rfl, rfl⟩, _, k, hn.1, (), _, ⟨hf, rfl⟩, _, _,
        ⟨by omega, rfl, rfl⟩, (), _, ⟨ht, rfl⟩, _, _, ⟨by omega, rfl, rfl⟩, (), _, ⟨hw, rfl⟩,
        _, _, ⟨by omega, rfl, rfl⟩, rfl, rfl⟩

theorem optional_start_iff {k : Nat} {s : Option Span} :
    (optional (do keyword .from_; single .literal) b k).1 = some (s, j) ∧
        b[j]? = some (.keyword .with_) ↔
      b[k]? = some (.keyword .from_) ∧ s = some ⟨k + 1, k + 2⟩ ∧ j = k + 2 ∧
          b[k + 2]? = some (.keyword .with_) ∨
        b[k]? = some (.keyword .with_) ∧ s = none ∧ j = k := by
  have hread : ∀ s j, ((do keyword .from_; single .literal : Reading Span) b k).1 = some (s, j) ↔
      b[k]? = some (.keyword .from_) ∧ k + 1 < b.length ∧ s = ⟨k + 1, k + 2⟩ ∧ j = k + 2 := by
    intro s j
    simp only [bind_eq_some_iff, keyword_eq_some_iff, single_eq_some_iff]
    constructor
    · intro h
      obtain ⟨_, _, ⟨hf, rfl⟩, hl, rfl, rfl⟩ := h
      exact ⟨hf, hl, rfl, rfl⟩
    · intro h
      obtain ⟨hf, hl, rfl, rfl⟩ := h
      exact ⟨(), _, ⟨hf, rfl⟩, hl, rfl, rfl⟩
  rw [optional_eq_some_iff]
  constructor
  · intro h
    obtain ⟨⟨a, ha, rfl⟩ | ⟨-, rfl, rfl⟩, hw⟩ := h
    · obtain ⟨hf, hl, rfl, rfl⟩ := (hread _ _).1 ha
      exact .inl ⟨hf, rfl, rfl, hw⟩
    · exact .inr ⟨hw, rfl, rfl⟩
  · intro h
    obtain ⟨hf, rfl, rfl, hw⟩ | ⟨hw, rfl, rfl⟩ := h
    · have hl := (List.getElem?_eq_some_iff.1 hw).1
      exact ⟨.inl ⟨_, (hread _ _).2 ⟨hf, by omega, rfl, rfl⟩, rfl⟩, hw⟩
    · refine ⟨.inr ⟨?_, rfl, rfl⟩, hw⟩
      rw [Option.eq_none_iff_forall_ne_some]
      rintro ⟨a, m⟩ ha
      cases ((hread _ _).1 ha).1.symm.trans hw

theorem run_pluralEdit_iff {o : Outline} :
    pluralEdit.run b = .ok o ↔ Shape b .editEvents o := by
  unfold pluralEdit
  simp only [run_eq_ok_iff, bind_eq_some_iff, keyword_eq_some_iff, single_eq_some_iff,
    rest_eq_some_iff, pure_eq_some_iff]
  constructor
  · intro h
    obtain ⟨_, _, _, ⟨-, rfl, rfl⟩, _, k, hn, s, m, hs, _, _, ⟨hw, rfl⟩, _, _,
      ⟨hv, rfl, rfl⟩, rfl, rfl⟩ := h
    have hne : b.drop (m + 1) ≠ [] := by
      rw [ne_eq, List.drop_eq_nil_iff]
      omega
    obtain ⟨hf, rfl, rfl, -⟩ | ⟨-, rfl, rfl⟩ := optional_start_iff.1 ⟨hs, hw⟩
    · obtain ⟨rfl, hk, hfirst, -⟩ := (nameUntil_keyword_iff (by simp)).1 ⟨hn, hf⟩
      refine .editFrom (v := b.drop (k + 3)) (x := b[k + 1]) hfirst hk ?_ hne
      simp only [drop_eq_cons_iff, hf, hw, true_and, and_true]
      exact List.getElem?_eq_getElem (by omega)
    · obtain ⟨rfl, hk, hfirst, -⟩ := (nameUntil_keyword_iff (by simp)).1 ⟨hn, hw⟩
      exact .editNamed hfirst hk (drop_eq_cons_iff.2 ⟨hw, rfl⟩) hne
  · intro h
    cases h with
    | editFrom hfirst hk hd hv =>
      rename_i k x v
      simp only [drop_eq_cons_iff] at hd
      obtain ⟨hf, hx, hw, rfl⟩ := hd
      rw [ne_eq, List.drop_eq_nil_iff] at hv
      have hn := (nameUntil_keyword_iff (i := 1) (s := ⟨1, k⟩) (by simp)).2 ⟨rfl, hk, hfirst, hf⟩
      have hs := (optional_start_iff (b := b)).2 (.inl ⟨hf, rfl, rfl, hw⟩)
      exact ⟨_, _, _, ⟨by omega, rfl, rfl⟩, _, k, hn.1, _, _, hs.1, (), _, ⟨hw, rfl⟩, _, _,
        ⟨by omega, rfl, rfl⟩, rfl, rfl⟩
    | editNamed hfirst hk hd hv =>
      rename_i k v
      obtain ⟨hw, rfl⟩ := drop_eq_cons_iff.1 hd
      rw [ne_eq, List.drop_eq_nil_iff] at hv
      have hn := (nameUntil_keyword_iff (i := 1) (s := ⟨1, k⟩) (by simp)).2 ⟨rfl, hk, hfirst, hw⟩
      have hs := (optional_start_iff (b := b)).2 (.inr ⟨hw, rfl, rfl⟩)
      exact ⟨_, _, _, ⟨by omega, rfl, rfl⟩, _, k, hn.1, _, _, hs.1, (), _, ⟨hw, rfl⟩, _, _,
        ⟨by omega, rfl, rfl⟩, rfl, rfl⟩

theorem run_one_iff {e : Expectation} {f : Span → Outline} {o : Outline} :
    Reading.run (do let s ← single e; finish; return f s) b = .ok o ↔
      (∃ x, b = [x]) ∧ f ⟨0, 1⟩ = o := by
  simp only [run_eq_ok_iff, bind_eq_some_iff, single_eq_some_iff, finish_eq_some_iff,
    pure_eq_some_iff]
  constructor
  · intro h
    obtain ⟨_, _, _, ⟨hl, rfl, rfl⟩, _, _, ⟨hend, rfl⟩, rfl, rfl⟩ := h
    exact ⟨List.length_eq_one_iff.1 (by omega), rfl⟩
  · intro h
    obtain ⟨⟨x, rfl⟩, rfl⟩ := h
    exact ⟨_, _, _, ⟨by simp, rfl, rfl⟩, (), _, ⟨by simp, rfl⟩, rfl, rfl⟩

theorem run_first_iff {e : Expectation} {f : Span → Outline} {o : Outline} :
    Reading.run (do let s ← single e; return f s) b = .ok o ↔
      (∃ x l, b = x :: l) ∧ f ⟨0, 1⟩ = o := by
  simp only [run_eq_ok_iff, bind_eq_some_iff, single_eq_some_iff, pure_eq_some_iff]
  constructor
  · intro h
    obtain ⟨_, _, _, ⟨hl, rfl, rfl⟩, rfl, rfl⟩ := h
    exact ⟨List.length_pos_iff_exists_cons.1 hl, rfl⟩
  · intro h
    obtain ⟨⟨x, l, rfl⟩, rfl⟩ := h
    exact ⟨_, _, _, ⟨by simp, rfl, rfl⟩, rfl, rfl⟩

theorem run_printFrom_iff {o : Outline} :
    (reading .printFrom).run b = .ok o ↔ Shape b .printFrom o := by
  simp only [reading, run_eq_ok_iff, bind_eq_some_iff, single_eq_some_iff, keyword_eq_some_iff,
    finish_eq_some_iff, pure_eq_some_iff]
  constructor
  · intro h
    obtain ⟨_, _, _, ⟨hl, rfl, rfl⟩, _, _, ⟨ht, rfl⟩, _, _, ⟨hy, rfl, rfl⟩, _, _, ⟨hend, rfl⟩,
      rfl, rfl⟩ := h
    have hd : b.drop 0 = [b[0], .keyword .to_, b[2]] := by
      simp only [drop_eq_cons_iff, ht, true_and, List.drop_eq_nil_iff]
      exact ⟨List.getElem?_eq_getElem hl, List.getElem?_eq_getElem hy, hend⟩
    exact .printRange hd
  · intro h
    cases h with
    | printRange hb =>
      subst hb
      exact ⟨_, _, _, ⟨by simp, rfl, rfl⟩, (), _, ⟨rfl, rfl⟩, _, _, ⟨by simp, rfl, rfl⟩, (), _,
        ⟨by simp, rfl⟩, rfl, rfl⟩

/-- The tokens after a verb are read exactly if they have a shape of that verb. -/
theorem read_eq_ok_iff {verb : Verb} {o : Outline} : read verb b = .ok o ↔ Shape b verb o := by
  cases verb with
  | createEvent => exact run_create_iff
  | editEvent => exact run_singleEdit_iff
  | editEvents => exact run_pluralEdit_iff
  | printFrom => exact run_printFrom_iff
  | printOn =>
    refine run_one_iff.trans ⟨?_, fun h => ?_⟩
    · intro h
      obtain ⟨⟨x, hb⟩, rfl⟩ := h
      exact .printOn hb
    · cases h with
      | printOn hb => exact ⟨⟨_, hb⟩, rfl⟩
  | showStatus =>
    refine run_one_iff.trans ⟨?_, fun h => ?_⟩
    · intro h
      obtain ⟨⟨x, hb⟩, rfl⟩ := h
      exact .showStatus hb
    · cases h with
      | showStatus hb => exact ⟨⟨_, hb⟩, rfl⟩
  | exportCal =>
    refine run_first_iff.trans ⟨?_, fun h => ?_⟩
    · intro h
      obtain ⟨⟨x, l, hb⟩, rfl⟩ := h
      exact .exportCal hb
    · cases h with
      | exportCal hb => exact ⟨⟨_, _, hb⟩, rfl⟩
  | exportGoogle =>
    refine run_first_iff.trans ⟨?_, fun h => ?_⟩
    · intro h
      obtain ⟨⟨x, l, hb⟩, rfl⟩ := h
      exact .exportGoogle hb
    · cases h with
      | exportGoogle hb => exact ⟨⟨_, _, hb⟩, rfl⟩

end Outline
end Daybook
