import Daybook.Proofs.Command.Grammar

/-!
Tokens with other words in the place of literals. Main statements: a name in front of them is found
as it was, the times of a timed event too, and an all-day event does not become a timed one.
-/
namespace Daybook.Outline
variable {b : List Token} {stops : List Keyword} {lo i : Nat}

theorem FirstAt.congr {b' : List Token} (h : FirstAt b stops lo i)
    (heq : ∀ m ≤ i, b'[m]? = b[m]?) : FirstAt b' stops lo i := by
  obtain ⟨hlo, ⟨k, hk, hi⟩, hno⟩ := h
  refine ⟨hlo, ⟨k, hk, ?_⟩, fun m hm hmi l hl => ?_⟩
  · rw [heq i (Nat.le_refl i), hi]
  · rw [heq m (Nat.le_of_lt hmi)]
    exact hno m hm hmi l hl

theorem getElem?_take_append {l : List Token} {m : Nat} (hi : i ≤ b.length) (hm : m < i) :
    (b.take i ++ l)[m]? = b[m]? := by
  rw [List.getElem?_append_left (by rw [List.length_take]; omega), List.getElem?_take_of_lt hm]

theorem getElem?_take_append_right {l : List Token} (hi : i ≤ b.length) (m : Nat) :
    (b.take i ++ l)[i + m]? = l[m]? := by
  have hlen : (b.take i).length = i := by rw [List.length_take]; omega
  rw [List.getElem?_append_right (by omega), hlen, Nat.add_sub_cancel_left]

theorem drop_take_append {l : List Token} (hi : i ≤ b.length) (m : Nat) :
    (b.take i ++ l).drop (i + m) = l.drop m := by
  have hlen : (b.take i).length = i := by rw [List.length_take]; omega
  rw [← List.drop_drop, List.drop_left' hlen]

theorem FirstAt.take_append {k : Keyword} {l : List Token} (h : FirstAt b stops lo i)
    (hk : b[i]? = some (.keyword k)) : FirstAt (b.take i ++ .keyword k :: l) stops lo i := by
  have hi : i ≤ b.length := Nat.le_of_lt (List.getElem?_eq_some_iff.1 hk).1
  refine h.congr fun m hm => ?_
  by_cases hmi : m = i
  · subst hmi
    rw [hk]
    exact getElem?_take_append_right hi 0
  · exact getElem?_take_append hi (by omega)

theorem TimedAt.take_append {f : Nat} {x y : Token} {l : List Token} (h : TimedAt b f) :
    TimedAt (b.take f ++ .keyword .from_ :: x :: .keyword .to_ :: y :: l) f := by
  obtain ⟨hfirst, hpos, -, hlen⟩ := h
  have hf : f ≤ b.length := by omega
  have hfrom : b[f]? = some (.keyword .from_) := by simpa using hfirst.2.1
  refine ⟨hfirst.take_append hfrom, hpos, getElem?_take_append_right hf 2, ?_⟩
  rw [List.length_append, List.length_take]
  simp only [List.length_cons]
  omega

/-- Behind what holds neither a from nor a to, nothing can become a time that was not begun before. -/
theorem TimedAt.inside {f : Nat} {l : List Token} (h : TimedAt (b.take i ++ l) f)
    (hi : i ≤ b.length) (hl : ∀ k ∈ [Keyword.from_, .to_], Token.keyword k ∉ l) :
    FirstAt b [.from_] 0 f ∧ 1 ≤ f ∧ b[f + 2]? = some (.keyword .to_) ∧ f + 2 < i := by
  obtain ⟨hfirst, hpos, hto, -⟩ := h
  have hin : ∀ k ∈ [Keyword.from_, .to_], ∀ m,
      (b.take i ++ l)[m]? = some (.keyword k) → m < i := by
    intro k hk m hm
    refine Nat.lt_of_not_le fun hge => hl k hk ?_
    obtain ⟨r, rfl⟩ : ∃ r, m = i + r := ⟨m - i, by omega⟩
    rw [getElem?_take_append_right hi] at hm
    exact List.mem_of_getElem? hm
  have hfrom := hfirst.2.1
  simp only [List.mem_singleton, exists_eq_left] at hfrom
  have hf : f < i := hin _ (by simp) f hfrom
  have hf2 : f + 2 < i := hin _ (by simp) (f + 2) hto
  refine ⟨hfirst.congr fun m hm => (getElem?_take_append hi (by omega)).symm, hpos, ?_, hf2⟩
  rw [← getElem?_take_append hi hf2, hto]

/-- A time in the name of an all-day event would have been one in the tokens it was read off. -/
theorem not_timedAt_take_append {o : Nat} {x : Token} {l : List Token}
    (h : ∀ f, ¬ TimedAt b f) (ho : o + 1 < b.length) (hx : x = .word)
    (hl : ∀ k ∈ [Keyword.from_, .to_], Token.keyword k ∉ l) :
    ∀ f, ¬ TimedAt (b.take o ++ .keyword .on_ :: x :: l) f := by
  subst hx
  intro f hf
  have hnone : ∀ k ∈ [Keyword.from_, .to_], Token.keyword k ∉ .keyword .on_ :: .word :: l := by
    intro k hk hmem
    simp only [List.mem_cons, reduceCtorEq, false_or] at hmem
    cases hmem with
    | inl hon =>
      cases hon
      simp at hk
    | inr hmem => exact hl k hk hmem
  obtain ⟨hfirst, hpos, hto, hlt⟩ := hf.inside (by omega) hnone
  exact h f ⟨hfirst, hpos, hto, by omega⟩

end Daybook.Outline
