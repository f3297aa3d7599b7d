import Daybook.Proofs.Command.Grammar

/-!
The parts of an outline, laid one behind the other. Main statement: besides being exact, reading
loses nothing: the clauses and the keywords between them, written back, are all of the tokens.
-/
namespace Daybook.Outline
variable {b : List Token} {i j : Nat}

inductive Part where
  | clause (s : Span)
  | keyword (k : Keyword)
  deriving DecidableEq, Repr

def Part.tokens (b : List Token) : Part → List Token
  | .clause s => (b.drop s.start).take (s.stop - s.start)
  | .keyword k => [.keyword k]

def spans : List Part → List Span
  | [] => []
  | .clause s :: ps => s :: spans ps
  | .keyword _ :: ps => spans ps

def repeatsParts : Option Repeats → List Part
  | none => []
  | some ⟨w, .count n⟩ =>
    [.keyword .repeats, .clause w, .keyword .for_, .clause n, .keyword .times]
  | some ⟨w, .bound t⟩ => [.keyword .repeats, .clause w, .keyword .until_, .clause t]

def parts : Outline → List Part
  | .createTimed name start stop repeats =>
    .clause name :: .keyword .from_ :: .clause start :: .keyword .to_ :: .clause stop ::
      repeatsParts repeats
  | .createAllDay name date repeats =>
    .clause name :: .keyword .on_ :: .clause date :: repeatsParts repeats
  | .editSingle property name start stop value =>
    [.clause property, .clause name, .keyword .from_, .clause start, .keyword .to_, .clause stop,
      .keyword .with_, .clause value]
  | .editMany property name (some start) value =>
    [.clause property, .clause name, .keyword .from_, .clause start, .keyword .with_,
      .clause value]
  | .editMany property name none value =>
    [.clause property, .clause name, .keyword .with_, .clause value]
  | .printOn date => [.clause date]
  | .printRange start stop => [.clause start, .keyword .to_, .clause stop]
  | .exportTo _ path => [.clause path]
  | .showStatus instant => [.clause instant]

def Laid (b : List Token) : Nat → List Part → Nat → Prop
  | i, [], j => i = j
  | i, .clause s :: ps, j => s.start = i ∧ i < s.stop ∧ s.stop ≤ b.length ∧ Laid b s.stop ps j
  | i, .keyword k :: ps, j => b[i]? = some (.keyword k) ∧ Laid b (i + 1) ps j

theorem flatMap_tokens_of_laid {ps : List Part} (h : Laid b i ps j) :
    ps.flatMap (Part.tokens b) ++ b.drop j = b.drop i := by
  induction ps generalizing i with
  | nil =>
    cases h
    rfl
  | cons p ps ih =>
    rw [List.flatMap_cons, List.append_assoc]
    cases p with
    | clause s =>
      obtain ⟨rfl, hlt, -, h⟩ := h
      have hstop : s.start + (s.stop - s.start) = s.stop := by omega
      rw [ih h, Part.tokens, ← hstop, Nat.add_sub_cancel_left, ← List.drop_drop,
        List.take_append_drop]
    | keyword k =>
      obtain ⟨hk, h⟩ := h
      rw [ih h]
      exact (drop_eq_cons_iff.2 ⟨hk, rfl⟩).symm

/-- The spans of parts so laid are in the tokens, and none starts before the parts do. -/
theorem span_of_laid {ps : List Part} (h : Laid b i ps j) {s : Span}
    (hs : s ∈ spans ps) : i ≤ s.start ∧ s.start < s.stop ∧ s.stop ≤ b.length := by
  induction ps generalizing i with
  | nil => cases hs
  | cons p ps ih =>
    cases p with
    | clause t =>
      obtain ⟨rfl, hlt, hl, h⟩ := h
      rw [spans, List.mem_cons] at hs
      cases hs with
      | inl hs =>
        subst hs
        exact ⟨Nat.le_refl _, hlt, hl⟩
      | inr hs =>
        obtain ⟨hle, hin⟩ := ih h hs
        exact ⟨by omega, hin⟩
    | keyword k =>
      obtain ⟨hle, hin⟩ := ih h.2 hs
      exact ⟨by omega, hin⟩

theorem pairwise_of_laid {ps : List Part} (h : Laid b i ps j) :
    (spans ps).Pairwise fun s t => s.stop ≤ t.start := by
  induction ps generalizing i with
  | nil => exact .nil
  | cons p ps ih =>
    cases p with
    | clause s =>
      obtain ⟨-, -, -, h⟩ := h
      rw [spans, List.pairwise_cons]
      exact ⟨fun t ht => (span_of_laid h ht).1, ih h⟩
    | keyword k => exact ih h.2

theorem laid_repeatsParts {r : Option Repeats} (hi : i ≤ b.length)
    (h : RepeatsShape i (b.drop i) r) : Laid b i (repeatsParts r) b.length := by
  generalize hd : b.drop i = l at h
  cases h with
  | none => exact Nat.le_antisymm hi (List.drop_eq_nil_iff.1 hd)
  | count x y =>
    simp only [drop_eq_cons_iff, List.drop_eq_nil_iff] at hd
    obtain ⟨hr, hx, hf, hy, ht, hl⟩ := hd
    have hlen := (List.getElem?_eq_some_iff.1 ht).1
    simp only [repeatsParts, Laid, hr, hf, ht, true_and]
    omega
  | bound x y =>
    simp only [drop_eq_cons_iff, List.drop_eq_nil_iff] at hd
    obtain ⟨hr, hx, hu, hy, hl⟩ := hd
    have hlen := (List.getElem?_eq_some_iff.1 hy).1
    simp only [repeatsParts, Laid, hr, hu, true_and]
    omega

/-- The parts lie behind each other from the first token on; but for exports they reach the last. -/
theorem laid_parts {verb : Verb} {o : Outline} (h : Shape b verb o) :
    ∃ j, Laid b 0 o.parts j ∧ (verb ≠ .exportCal → verb ≠ .exportGoogle → j = b.length) := by
  suffices hall : verb ≠ .exportCal → verb ≠ .exportGoogle → Laid b 0 o.parts b.length by
    cases h with
    | exportCal hb =>
      subst hb
      exact ⟨1, by simp [parts, Laid], fun hcal => absurd rfl hcal⟩
    | exportGoogle hb =>
      subst hb
      exact ⟨1, by simp [parts, Laid], fun _ hgoogle => absurd rfl hgoogle⟩
    | _ => exact ⟨b.length, hall (by simp) (by simp), fun _ _ => rfl⟩
  intro hcal hgoogle
  cases h with
  | @createTimed f r hf hr =>
    obtain ⟨hfirst, hpos, ht, hl⟩ := hf
    have hfrom : b[f]? = some (.keyword .from_) := by simpa using hfirst.2.1
    simp only [parts, Laid, hfrom, ht, true_and]
    exact ⟨hpos, by omega, by omega, by omega, by omega, hl, laid_repeatsParts hl hr⟩
  | @createAllDay n r hno hfirst hpos hl hr =>
    have hon : b[n]? = some (.keyword .on_) := by simpa using hfirst.2.1
    simp only [parts, Laid, hon, true_and]
    exact ⟨hpos, by omega, by omega, hl, laid_repeatsParts hl hr⟩
  | @editSingle k x y v hfirst hk hd hv =>
    simp only [drop_eq_cons_iff] at hd
    obtain ⟨hf, hx, ht, hy, hw, rfl⟩ := hd
    rw [ne_eq, List.drop_eq_nil_iff] at hv
    simp only [parts, Laid, hf, ht, hw, true_and, and_true]
    omega
  | @editFrom k x v hfirst hk hd hv =>
    simp only [drop_eq_cons_iff] at hd
    obtain ⟨hf, hx, hw, rfl⟩ := hd
    rw [ne_eq, List.drop_eq_nil_iff] at hv
    simp only [parts, Laid, hf, hw, true_and, and_true]
    omega
  | @editNamed k v hfirst hk hd hv =>
    obtain ⟨hw, rfl⟩ := drop_eq_cons_iff.1 hd
    rw [ne_eq, List.drop_eq_nil_iff] at hv
    simp only [parts, Laid, hw, true_and, and_true]
    omega
  | printOn hb =>
    subst hb
    simp [parts, Laid]
  | @printRange x y hb =>
    subst hb
    simp [parts, Laid]
  | exportCal => exact absurd rfl hcal
  | exportGoogle => exact absurd rfl hgoogle
  | showStatus hb =>
    subst hb
    simp [parts, Laid]

/-- The grammar is accepted exactly and loses nothing: a reading succeeds exactly with the shapes
of its verb, and but for exports the clauses and keywords written back are all of the tokens, with
clauses that are not empty, inside the tokens, in order and apart from each other. -/
theorem read_exact_and_lossless (verb : Verb) (b : List Token) (o : Outline) :
    (read verb b = .ok o ↔ Shape b verb o) ∧
      (read verb b = .ok o → verb ≠ .exportCal → verb ≠ .exportGoogle →
        o.parts.flatMap (Part.tokens b) = b ∧
          (∀ s ∈ spans o.parts, s.start < s.stop ∧ s.stop ≤ b.length) ∧
          (spans o.parts).Pairwise fun s t => s.stop ≤ t.start) := by
  refine ⟨read_eq_ok_iff, fun h hcal hgoogle => ?_⟩
  obtain ⟨j, hlaid, hj⟩ := laid_parts (read_eq_ok_iff.1 h)
  obtain rfl := hj hcal hgoogle
  have hall := flatMap_tokens_of_laid hlaid
  rw [List.drop_length, List.append_nil, List.drop_zero] at hall
  exact ⟨hall, fun s hs => (span_of_laid hlaid hs).2, pairwise_of_laid hlaid⟩

end Daybook.Outline
