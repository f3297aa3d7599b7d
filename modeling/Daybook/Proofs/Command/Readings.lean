import Daybook.Command.Reading

/-!
What a reading takes: for each way of reading, when it succeeds, with what, and where it stops.
-/
namespace Daybook

theorem length_takeWhile_eq_iff {α : Type} {p : α → Bool} {l : List α} {n : Nat} :
    (l.takeWhile p).length = n ↔
      (∀ m < n, ∃ a, l[m]? = some a ∧ p a = true) ∧ ∀ a, l[n]? = some a → p a = false := by
  induction l generalizing n with
  | nil =>
    constructor
    · rintro rfl
      simp
    · intro h
      obtain ⟨h, -⟩ := h
      cases n with
      | zero => rfl
      | succ n => simpa using h 0 (by omega)
  | cons a l ih =>
    by_cases ha : p a
    · cases n with
      | zero => simp [ha]
      | succ n =>
        simp only [List.takeWhile_cons, ha, if_true, List.length_cons, Nat.add_right_cancel_iff, ih,
          List.getElem?_cons_succ]
        refine and_congr_left fun _ => ⟨fun h m hm => ?_, fun h m hm => ?_⟩
        · cases m with
          | zero => exact ⟨a, rfl, ha⟩
          | succ m => exact h m (by omega)
        · exact h (m + 1) (by omega)
    · constructor
      · simp only [List.takeWhile_cons, ha]
        rintro rfl
        simpa using ha
      · intro h
        obtain ⟨h, -⟩ := h
        cases n with
        | zero => simp [ha]
        | succ n =>
          obtain ⟨b, hb, hp⟩ := h 0 (by omega)
          simp only [List.getElem?_cons_zero, Option.some.injEq] at hb
          exact absurd (hb ▸ hp) ha

namespace Reading
variable {α β : Type} {ts : List Token} {i j : Nat}

theorem pure_eq_some_iff {a b : α} :
    ((pure a : Reading α) ts i).1 = some (b, j) ↔ a = b ∧ i = j := by
  simp [pure]

theorem bind_eq_some_iff {p : Reading α} {f : α → Reading β} {b : β} :
    ((p >>= f) ts i).1 = some (b, j) ↔
      ∃ a k, (p ts i).1 = some (a, k) ∧ (f a ts k).1 = some (b, j) := by
  simp only [bind]
  split
  · rename_i h
    simp [h]
  · rename_i a k ns h
    simp only [h, Option.some.injEq, Prod.mk.injEq]
    constructor
    · intro hf
      exact ⟨a, k, ⟨rfl, rfl⟩, hf⟩
    · intro h
      obtain ⟨_, _, ⟨rfl, rfl⟩, hf⟩ := h
      exact hf

theorem keyword_eq_some_iff {k : Keyword} {u : Unit} :
    (keyword k ts i).1 = some (u, j) ↔ ts[i]? = some (.keyword k) ∧ i + 1 = j := by
  unfold keyword
  split <;> simp_all

theorem single_eq_some_iff {e : Expectation} {s : Span} :
    (single e ts i).1 = some (s, j) ↔ i < ts.length ∧ ⟨i, i + 1⟩ = s ∧ i + 1 = j := by
  by_cases h : i < ts.length <;> simp [single, h]

theorem rest_eq_some_iff {e : Expectation} {s : Span} :
    (rest e ts i).1 = some (s, j) ↔ i < ts.length ∧ ⟨i, ts.length⟩ = s ∧ ts.length = j := by
  by_cases h : i < ts.length <;> simp [rest, h]

theorem finish_eq_some_iff {u : Unit} :
    (finish ts i).1 = some (u, j) ↔ ts.length ≤ i ∧ i = j := by
  unfold finish
  split
  · simp only [reduceCtorEq, false_iff]
    omega
  · simp only [Option.some.injEq, Prod.mk.injEq, true_and]
    omega

theorem optional_eq_some_iff {p : Reading α} {o : Option α} :
    (optional p ts i).1 = some (o, j) ↔
      (∃ a, (p ts i).1 = some (a, j) ∧ o = some a) ∨ (p ts i).1 = none ∧ o = none ∧ i = j := by
  unfold optional
  split
  · rename_i a k ns h
    simp only [h, Option.some.injEq, Prod.mk.injEq, reduceCtorEq, false_and, or_false]
    constructor
    · intro h
      obtain ⟨rfl, rfl⟩ := h
      exact ⟨a, ⟨rfl, rfl⟩, rfl⟩
    · intro h
      obtain ⟨b, ⟨rfl, rfl⟩, rfl⟩ := h
      exact ⟨rfl, rfl⟩
  · rename_i ns h
    simp [h, eq_comm]

theorem orElse_eq_some_iff {p q : Reading α} {r : α × Nat} :
    (orElse p q ts i).1 = some r ↔
      (p ts i).1 = some r ∨ (p ts i).1 = none ∧ (q ts i).1 = some r := by
  unfold orElse
  split
  · rename_i h
    simp [h]
  · rename_i h
    simp [h]

theorem contains_stops {stops : List Keyword} {t : Token} :
    (stops.map Token.keyword).contains t = true ↔ ∃ k ∈ stops, t = .keyword k := by
  rw [List.contains_iff_mem, List.mem_map]
  exact exists_congr fun k => and_congr_right fun _ => eq_comm

theorem length_name_eq_iff {stops : List Keyword} {n : Nat} :
    ((ts.drop i).takeWhile fun t => !(stops.map Token.keyword).contains t).length = n ↔
      (∀ m, i ≤ m → m < i + n → ∃ t, ts[m]? = some t ∧ ∀ k ∈ stops, t ≠ .keyword k) ∧
        ∀ t, ts[i + n]? = some t → ∃ k ∈ stops, t = .keyword k := by
  rw [length_takeWhile_eq_iff]
  have hgo : ∀ t, (!(stops.map Token.keyword).contains t) = true ↔ ∀ k ∈ stops, t ≠ .keyword k := by
    intro t
    rw [Bool.not_eq_true', ← Bool.not_eq_true, contains_stops]
    simp only [not_exists, not_and, ne_eq]
  simp only [List.getElem?_drop, hgo, Bool.not_eq_false', contains_stops]
  refine and_congr ⟨fun h m hm hmn => ?_, fun h m hm => ?_⟩ Iff.rfl
  · have hd := h (m - i) (by omega)
    rwa [Nat.add_sub_cancel' hm] at hd
  · exact h (i + m) (by omega) (by omega)

theorem nameUntil_eq_some_iff {stops : List Keyword} {s : Span} :
    (nameUntil stops ts i).1 = some (s, j) ↔
      ⟨i, j⟩ = s ∧ i < j ∧
        (∀ m, i ≤ m → m < j → ∃ t, ts[m]? = some t ∧ ∀ k ∈ stops, t ≠ .keyword k) ∧
        ∀ t, ts[j]? = some t → ∃ k ∈ stops, t = .keyword k := by
  simp only [nameUntil]
  constructor
  · intro h
    split at h
    · cases h
    · rename_i hn
      simp only [Option.some.injEq, Prod.mk.injEq] at h
      obtain ⟨rfl, rfl⟩ := h
      exact ⟨rfl, by omega, length_name_eq_iff.1 rfl⟩
  · intro h
    obtain ⟨rfl, hij, h⟩ := h
    obtain ⟨n, rfl⟩ : ∃ n, j = i + n := ⟨j - i, by omega⟩
    rw [length_name_eq_iff.2 h, if_neg (by omega)]

theorem run_eq_ok_iff {p : Reading α} {a : α} :
    p.run ts = .ok a ↔ ∃ j, (p ts 0).1 = some (a, j) := by
  unfold run
  split <;> rename_i h <;> simp [h]

end Reading
end Daybook
