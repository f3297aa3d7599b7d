import Daybook.Proofs.Command.Notes
import Mathlib.Computability.Language

/-!
Readings and the languages that they read. Main statement: the notes of every way of reading guide
into its language, that is, what was read up to a note can be continued with what is expected there.
-/
namespace Daybook

def Expectation.Opens : Expectation → List Token → Prop
  | .keyword k, l => l.head? = some (.keyword k)
  | .endOfInput, l => l = []
  | _, l => l ≠ []

theorem Expectation.Opens.ne_nil {e : Expectation} {l : List Token} (h : e.Opens l)
    (he : e ≠ .endOfInput) : l ≠ [] := by
  rintro rfl
  cases e with
  | keyword k => cases h
  | endOfInput => exact he rfl
  | _ => exact h rfl

theorem Expectation.Opens.congr {e : Expectation} {l m : List Token} (h : e.Opens l)
    (he : e ≠ .endOfInput) (hhead : m.head? = l.head?) : e.Opens m := by
  have hm : m ≠ [] := by
    rintro rfl
    exact h.ne_nil he (List.head?_eq_none_iff.1 hhead.symm)
  cases e with
  | keyword k => exact hhead.trans h
  | endOfInput => exact absurd rfl he
  | _ => exact hm

namespace Reading
variable {α β γ : Type} {b : List Token} {i j k : Nat} {avoid : List Keyword}
  {L M : Language Token}

theorem bind_assoc (p : Reading α) (f : α → Reading β) (g : β → Reading γ) :
    (p >>= f) >>= g = p >>= fun a => f a >>= g := by
  funext b i
  simp only [bind]
  generalize p b i = r
  obtain ⟨_ | ⟨a, j⟩, ns⟩ := r
  · rfl
  dsimp only
  generalize f a b j = s
  obtain ⟨_ | ⟨d, k⟩, ms⟩ := s
  · rfl
  simp only [List.append_assoc]

theorem extract_append_extract (hij : i ≤ j) (hjk : j ≤ k) :
    b.extract i j ++ b.extract j k = b.extract i k := by
  have hdrop : b.drop j = (b.drop i).drop (j - i) := by
    rw [List.drop_drop, Nat.add_sub_cancel' hij]
  rw [List.extract, List.extract, List.extract, hdrop, ← List.take_add]
  congr 1
  omega

theorem extract_self : b.extract i i = [] := by
  rw [List.extract, Nat.sub_self, List.take_zero]

theorem extract_succ (hi : i < b.length) : b.extract i (i + 1) = [b[i]] := by
  rw [List.extract, List.drop_eq_getElem_cons hi, Nat.add_sub_cancel_left]
  rfl

def Avoids (avoid : List Keyword) (l : List Token) : Prop := ∀ k ∈ avoid, Token.keyword k ∉ l

theorem Avoids.append {l m : List Token} (hl : Avoids avoid l) (hm : Avoids avoid m) :
    Avoids avoid (l ++ m) := by
  intro k hk h
  rcases List.mem_append.1 h with h | h
  · exact hl k hk h
  · exact hm k hk h

theorem avoids_nil : Avoids avoid [] := fun _ _ => List.not_mem_nil

theorem avoids_word : Avoids avoid [.word] := by
  intro k _ h
  cases List.mem_singleton.1 h

/-- A reading of a language whose notes guide into it, without the help of some keywords. -/
structure Guides (avoid : List Keyword) (p : Reading α) (L : Language Token) : Prop where
  fills : ∃ l ∈ L, Avoids avoid l
  reads : ∀ {b i j a}, i ≤ b.length → (p b i).1 = some (a, j) →
    i ≤ j ∧ j ≤ b.length ∧ b.extract i j ∈ L
  goesOn : ∀ {b i n}, i ≤ b.length → n ∈ (p b i).2 →
    i ≤ n.place ∧ n.place ≤ b.length ∧ n.expected ≠ .endOfInput ∧
      ∃ l, b.extract i n.place ++ l ∈ L ∧ n.expected.Opens l ∧ Avoids avoid l

def just (k : Keyword) : Language Token := {[.keyword k]}

def anyToken : Language Token := {l | l.length = 1}

def someTokens : Language Token := {l | l ≠ []}

def names (stops : List Keyword) : Language Token := {l | l ≠ [] ∧ Avoids stops l}

theorem Guides.helped {p : Reading α} {help : List Keyword} (h : Guides avoid p L)
    (hsub : help ⊆ avoid) : Guides help p L := by
  have hless : ∀ {l}, Avoids avoid l → Avoids help l := fun hl k hk => hl k (hsub hk)
  obtain ⟨l, hl, havoids⟩ := h.fills
  refine ⟨⟨l, hl, hless havoids⟩, h.reads, fun hi hn => ?_⟩
  obtain ⟨hin, hlen, he, l, hl, hopens, havoids⟩ := h.goesOn hi hn
  exact ⟨hin, hlen, he, l, hl, hopens, hless havoids⟩

theorem Guides.pure (a : α) : Guides avoid (Pure.pure a) 1 := by
  refine ⟨⟨[], rfl, avoids_nil⟩, fun {b i j c} hi h => ?_, fun _ hn => absurd hn not_mem_notes_pure⟩
  obtain ⟨-, rfl⟩ := pure_eq_some_iff.1 h
  exact ⟨Nat.le_refl i, hi, by simp⟩

theorem Guides.keyword {k : Keyword} (hk : k ∉ avoid) : Guides avoid (keyword k) (just k) := by
  have hword : Avoids avoid [.keyword k] := by
    intro x hx h
    cases List.mem_singleton.1 h
    exact hk hx
  refine ⟨⟨_, rfl, hword⟩, fun {b i j a} hi h => ?_, fun {b i n} hi h => ?_⟩
  · obtain ⟨hat, rfl⟩ := keyword_eq_some_iff.1 h
    obtain ⟨hlt, hget⟩ := List.getElem?_eq_some_iff.1 hat
    refine ⟨Nat.le_succ i, hlt, ?_⟩
    rw [extract_succ hlt, hget]
    rfl
  · obtain ⟨-, rfl⟩ := mem_notes_keyword_iff.1 h
    refine ⟨Nat.le_refl i, hi, nofun, [.keyword k], ?_, rfl, hword⟩
    rw [extract_self]
    rfl

theorem Guides.single {e : Expectation} (he : e.Opens [.word]) :
    Guides avoid (single e) anyToken := by
  refine ⟨⟨_, rfl, avoids_word⟩, fun {b i j a} hi h => ?_, fun {b i n} hi h => ?_⟩
  · obtain ⟨hlt, -, rfl⟩ := single_eq_some_iff.1 h
    refine ⟨Nat.le_succ i, hlt, ?_⟩
    rw [extract_succ hlt]
    rfl
  · obtain ⟨-, rfl⟩ := mem_notes_single_iff.1 h
    refine ⟨Nat.le_refl i, hi, ?_, [.word], ?_, he, avoids_word⟩
    · rintro rfl
      cases he
    · rw [extract_self]
      rfl

theorem Guides.rest {e : Expectation} (he : e.Opens [.word]) :
    Guides avoid (rest e) someTokens := by
  refine ⟨⟨[.word], List.cons_ne_nil _ _, avoids_word⟩, fun {b i j a} hi h => ?_,
    fun {b i n} hi h => ?_⟩
  · obtain ⟨hlt, -, rfl⟩ := rest_eq_some_iff.1 h
    refine ⟨hi, Nat.le_refl _, ?_⟩
    rw [← extract_append_extract (Nat.le_succ i) hlt, extract_succ hlt]
    exact List.cons_ne_nil _ _
  · obtain ⟨-, rfl⟩ := mem_notes_rest_iff.1 h
    refine ⟨Nat.le_refl i, hi, ?_, [.word], ?_, he, avoids_word⟩
    · rintro rfl
      cases he
    · rw [extract_self]
      exact List.cons_ne_nil _ _

/-- A name can be gone on with one more word wherever it stops. -/
theorem Guides.nameUntil (stops : List Keyword) :
    Guides avoid (nameUntil stops) (names stops) := by
  have hword : [.word] ∈ names stops := ⟨List.cons_ne_nil _ _, avoids_word⟩
  have hread : ∀ {b i j a}, (Reading.nameUntil stops b i).1 = some (a, j) →
      i ≤ j ∧ j ≤ b.length ∧ b.extract i j ∈ names stops := by
    intro b i j a h
    obtain ⟨rfl, hij, hgo, -⟩ := nameUntil_eq_some_iff.1 h
    obtain ⟨t, ht, -⟩ := hgo (j - 1) (by omega) (by omega)
    have hj := (List.getElem?_eq_some_iff.1 ht).1
    refine ⟨Nat.le_of_lt hij, by omega, ?_, fun k hk hmem => ?_⟩
    · rw [← extract_append_extract (Nat.le_succ i) hij, extract_succ (by omega)]
      exact List.cons_ne_nil _ _
    · obtain ⟨m, hm⟩ := List.mem_iff_getElem?.1 hmem
      rw [List.extract, List.getElem?_take] at hm
      split at hm
      · rw [List.getElem?_drop] at hm
        obtain ⟨t, ht, hne⟩ := hgo (i + m) (by omega) (by omega)
        exact hne k hk (Option.some.inj (ht.symm.trans hm))
      · cases hm
  refine ⟨⟨[.word], hword, avoids_word⟩, fun _ h => hread h, fun {b i n} hi h => ?_⟩
  obtain rfl | ⟨hname, he⟩ := mem_notes_nameUntil h
  · refine ⟨Nat.le_refl i, hi, nofun, [.word], ?_, List.cons_ne_nil _ _, avoids_word⟩
    rw [extract_self]
    exact hword
  · obtain ⟨hle, hlen, hmem⟩ := hread hname
    refine ⟨hle, hlen, ?_, [.word], ⟨?_, hmem.2.append avoids_word⟩, ?_, avoids_word⟩
    · obtain he | he := he <;> rw [he] <;> nofun
    · exact List.append_ne_nil_of_right_ne_nil _ (List.cons_ne_nil _ _)
    · obtain he | he := he <;> rw [he] <;> exact List.cons_ne_nil _ _

theorem Guides.bind [Nonempty α] {p : Reading α} {f : α → Reading β} (hp : Guides avoid p L)
    (hf : ∀ a, Guides avoid (f a) M) : Guides avoid (p >>= f) (L * M) := by
  obtain ⟨m, hm, hmavoids⟩ := (hf (Classical.arbitrary α)).fills
  refine ⟨?_, fun {b i k d} hi h => ?_, fun {b i n} hi h => ?_⟩
  · obtain ⟨l, hl, hlavoids⟩ := hp.fills
    exact ⟨l ++ m, Language.append_mem_mul hl hm, hlavoids.append hmavoids⟩
  · obtain ⟨a, j, ha, hd⟩ := bind_eq_some_iff.1 h
    obtain ⟨hij, hj, hl⟩ := hp.reads hi ha
    obtain ⟨hjk, hk, hm⟩ := (hf a).reads hj hd
    refine ⟨Nat.le_trans hij hjk, hk, ?_⟩
    rw [← extract_append_extract hij hjk]
    exact Language.append_mem_mul hl hm
  · obtain hn | ⟨a, j, ha, hn⟩ := mem_notes_bind_iff.1 h
    · obtain ⟨hin, hlen, he, l, hl, hopens, havoids⟩ := hp.goesOn hi hn
      refine ⟨hin, hlen, he, l ++ m, ?_, ?_, havoids.append hmavoids⟩
      · rw [← List.append_assoc]
        exact Language.append_mem_mul hl hm
      · exact hopens.congr he (List.head?_append_of_ne_nil _ (hopens.ne_nil he))
    · obtain ⟨hij, hj, hl⟩ := hp.reads hi ha
      obtain ⟨hjn, hlen, he, m, hm, hopens, havoids⟩ := (hf a).goesOn hj hn
      refine ⟨Nat.le_trans hij hjn, hlen, he, m, ?_, hopens, havoids⟩
      rw [← extract_append_extract hij hjn, List.append_assoc]
      exact Language.append_mem_mul hl hm

theorem Guides.returns [Nonempty α] {p : Reading α} (hp : Guides avoid p L) (f : α → β) :
    Guides avoid (p >>= fun a => Pure.pure (f a)) L := by
  have := hp.bind fun a => .pure (f a)
  rwa [mul_one] at this

theorem Guides.optional {p : Reading α} (hp : Guides avoid p L) :
    Guides avoid (optional p) (L + 1) := by
  refine ⟨⟨[], .inr rfl, avoids_nil⟩, fun {b i j a} hi h => ?_, fun {b i n} hi h => ?_⟩
  · obtain ⟨a, ha, -⟩ | ⟨-, -, rfl⟩ := optional_eq_some_iff.1 h
    · obtain ⟨hij, hj, hl⟩ := hp.reads hi ha
      exact ⟨hij, hj, .inl hl⟩
    · exact ⟨Nat.le_refl i, hi, .inr extract_self⟩
  · obtain ⟨hin, hlen, he, l, hl, hopens⟩ := hp.goesOn hi (mem_notes_optional_iff.1 h)
    exact ⟨hin, hlen, he, l, .inl hl, hopens⟩

theorem Guides.orElse {p q : Reading α} (hp : Guides avoid p L) (hq : Guides avoid q M) :
    Guides avoid (orElse p q) (L + M) := by
  obtain ⟨l, hl, havoids⟩ := hp.fills
  refine ⟨⟨l, .inl hl, havoids⟩, fun {b i j a} hi h => ?_, fun {b i n} hi h => ?_⟩
  · obtain h | ⟨-, h⟩ := orElse_eq_some_iff.1 h
    · obtain ⟨hij, hj, hl⟩ := hp.reads hi h
      exact ⟨hij, hj, .inl hl⟩
    · obtain ⟨hij, hj, hm⟩ := hq.reads hi h
      exact ⟨hij, hj, .inr hm⟩
  · obtain h | ⟨-, h⟩ := mem_notes_orElse_iff.1 h
    · obtain ⟨hin, hlen, he, l, hl, hopens⟩ := hp.goesOn hi h
      exact ⟨hin, hlen, he, l, .inl hl, hopens⟩
    · obtain ⟨hin, hlen, he, m, hm, hopens⟩ := hq.goesOn hi h
      exact ⟨hin, hlen, he, m, .inr hm, hopens⟩

end Reading
end Daybook
