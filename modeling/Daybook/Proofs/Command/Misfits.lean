import Daybook.Proofs.Command.Guides
import Daybook.Proofs.Command.Respelling

/-!
Where tokens that fit no command go wrong. Main statement: the tokens in front of the place that is
told can be continued to a command, also with each keyword that is expected there, and those up to
and with the one found cannot.
-/
namespace Daybook

instance : Nonempty Span := ⟨⟨0, 0⟩⟩
instance : Nonempty RepeatsEnding := ⟨.count ⟨0, 0⟩⟩
instance : Nonempty Repeats := ⟨⟨⟨0, 0⟩, .count ⟨0, 0⟩⟩⟩

namespace Outline
open Reading
variable {b l : List Token} {stops : List Keyword} {i j : Nat} {n : Note} {verb : Verb}

def Accepted (verb : Verb) (b : List Token) : Prop := ∃ o, read verb b = .ok o

theorem Shape.accepted {o : Outline} (h : Shape b verb o) : Accepted verb b :=
  ⟨o, read_eq_ok_iff.2 h⟩

theorem mem_just_mul {k : Keyword} {L : Language Token} :
    l ∈ just k * L ↔ ∃ m ∈ L, l = .keyword k :: m := by
  rw [Language.mem_mul]
  constructor
  · intro h
    obtain ⟨_, rfl, m, hm, rfl⟩ := h
    exact ⟨m, hm, rfl⟩
  · intro h
    obtain ⟨m, hm, rfl⟩ := h
    exact ⟨_, rfl, m, hm, rfl⟩

theorem mem_anyToken_mul {L : Language Token} :
    l ∈ anyToken * L ↔ ∃ t, ∃ m ∈ L, l = t :: m := by
  rw [Language.mem_mul]
  constructor
  · intro h
    obtain ⟨s, hs, m, hm, rfl⟩ := h
    obtain ⟨t, rfl⟩ := List.length_eq_one_iff.1 hs
    exact ⟨t, m, hm, rfl⟩
  · intro h
    obtain ⟨t, m, hm, rfl⟩ := h
    exact ⟨[t], rfl, m, hm, rfl⟩

theorem firstAt_of_mem_names (before : List Token) {name : List Token} {k : Keyword}
    (hname : name ∈ names stops) (hk : k ∈ stops) :
    FirstAt (before ++ (name ++ .keyword k :: l)) stops before.length
      (before.length + name.length) := by
  refine ⟨Nat.le_add_right _ _, ⟨k, hk, ?_⟩, fun m hm hmn x hx h => ?_⟩
  · rw [List.getElem?_append_right (Nat.le_add_right _ _), Nat.add_sub_cancel_left,
      List.getElem?_append_right (Nat.le_refl _), Nat.sub_self]
    rfl
  · rw [List.getElem?_append_right hm, List.getElem?_append_left (by omega)] at h
    exact hname.2 x hx (List.mem_of_getElem? h)

theorem drop_name (before name l : List Token) :
    (before ++ (name ++ l)).drop (before.length + name.length) = l := by
  rw [← List.append_assoc, ← List.length_append, List.drop_left]

theorem length_pos_of_mem_names {name : List Token} (h : name ∈ names stops) : 0 < name.length :=
  List.length_pos_iff.2 h.1

def repeatsTokens : Language Token :=
  just .repeats * (anyToken *
    (just .for_ * (anyToken * just .times) + just .until_ * anyToken))

def timedTokens : Language Token :=
  names [.from_] * (just .from_ * (anyToken * (just .to_ * (anyToken * (repeatsTokens + 1)))))

def allDayTokens : Language Token :=
  names [.on_] * (just .on_ * (anyToken * (repeatsTokens + 1)))

def singleEditTokens : Language Token :=
  anyToken * (names [.from_, .with_] * (just .from_ * (anyToken * (just .to_ * (anyToken *
    (just .with_ * someTokens))))))

def pluralEditTokens : Language Token :=
  anyToken * (names [.from_, .with_] * ((just .from_ * anyToken + 1) *
    (just .with_ * someTokens)))

theorem opens_word_literal : Expectation.literal.Opens [.word] := List.cons_ne_nil _ _

theorem guides_repeatsClause : Guides [.from_, .to_] repeatsClause repeatsTokens := by
  unfold repeatsClause repeatsTokens
  have hcount : Guides [.from_, .to_]
      (do keyword .for_; let n ← single .literal; keyword .times; return RepeatsEnding.count n)
      (just .for_ * (anyToken * just .times)) :=
    .bind (.keyword (by decide)) fun _ => .bind (.single opens_word_literal) fun _ =>
      .returns (.keyword (by decide)) _
  have hbound : Guides [.from_, .to_]
      (do keyword .until_; let t ← single .literal; return RepeatsEnding.bound t)
      (just .until_ * anyToken) :=
    .bind (.keyword (by decide)) fun _ => .returns (.single opens_word_literal) _
  exact .bind (.keyword (by decide)) fun _ => .bind (.single (List.cons_ne_nil _ _)) fun _ =>
    .returns (hcount.orElse hbound) _

theorem guides_timed : Guides [] timed timedTokens := by
  unfold timed timedTokens
  exact .bind (.nameUntil _) fun _ => .bind (.keyword (by decide)) fun _ =>
    .bind (.single opens_word_literal) fun _ => .bind (.keyword (by decide)) fun _ =>
      .bind (.single opens_word_literal) fun _ =>
        .returns (guides_repeatsClause.optional.helped (List.nil_subset _)) _

theorem guides_allDay : Guides [.from_, .to_] allDay allDayTokens := by
  unfold allDay allDayTokens
  exact .bind (.nameUntil _) fun _ => .bind (.keyword (by decide)) fun _ =>
    .bind (.single opens_word_literal) fun _ => .returns guides_repeatsClause.optional _

theorem guides_singleEdit : Guides [] singleEdit singleEditTokens := by
  unfold singleEdit singleEditTokens
  exact .bind (.single (List.cons_ne_nil _ _)) fun _ => .bind (.nameUntil _) fun _ =>
    .bind (.keyword (by decide)) fun _ => .bind (.single opens_word_literal) fun _ =>
      .bind (.keyword (by decide)) fun _ => .bind (.single opens_word_literal) fun _ =>
        .bind (.keyword (by decide)) fun _ => .returns (.rest (e := .value) (List.cons_ne_nil _ _)) _

theorem guides_pluralEdit : Guides [] pluralEdit pluralEditTokens := by
  unfold pluralEdit pluralEditTokens
  have hstart : Guides [] (do keyword .from_; single .literal) (just .from_ * anyToken) :=
    .bind (.keyword (by decide)) fun _ => .single opens_word_literal
  exact .bind (.single (List.cons_ne_nil _ _)) fun _ => .bind (.nameUntil _) fun _ =>
    .bind hstart.optional fun _ => .bind (.keyword (by decide)) fun _ =>
      .returns (.rest (e := .value) (List.cons_ne_nil _ _)) _

theorem exists_repeatsShape (h : l ∈ repeatsTokens + 1) (i : Nat) : ∃ r, RepeatsShape i l r := by
  simp only [repeatsTokens, Language.mem_add, mem_just_mul, mem_anyToken_mul] at h
  obtain ⟨_, ⟨w, _, ⟨_, ⟨n, _, rfl, rfl⟩, rfl⟩ | ⟨_, hone, rfl⟩, rfl⟩, rfl⟩ | rfl := h
  · exact ⟨_, .count w n⟩
  · obtain ⟨t, rfl⟩ := List.length_eq_one_iff.1 hone
    exact ⟨_, .bound w t⟩
  · exact ⟨none, .none⟩

theorem exists_timedAt (h : l ∈ timedTokens) :
    ∃ f r, TimedAt l f ∧ RepeatsShape (f + 4) (l.drop (f + 4)) r := by
  obtain ⟨name, hname, _, htail, rfl⟩ := Language.mem_mul.1 h
  simp only [mem_just_mul, mem_anyToken_mul] at htail
  obtain ⟨_, ⟨x, _, ⟨_, ⟨y, t, ht, rfl⟩, rfl⟩, rfl⟩, rfl⟩ := htail
  obtain ⟨r, hr⟩ := exists_repeatsShape ht (name.length + 4)
  have hfirst := firstAt_of_mem_names [] (l := x :: .keyword .to_ :: y :: t) hname
    (List.mem_singleton_self _)
  simp only [List.nil_append, List.length_nil, Nat.zero_add] at hfirst
  refine ⟨name.length, r, ⟨hfirst, length_pos_of_mem_names hname, ?_, ?_⟩, ?_⟩
  · simp
  · simp
  · rw [List.drop_length_add_append]
    exact hr

theorem accepted_of_mem_timedTokens (h : l ∈ timedTokens) : Accepted .createEvent l := by
  obtain ⟨f, r, hf, hr⟩ := exists_timedAt h
  exact (Shape.createTimed hf hr).accepted

theorem accepted_of_mem_allDayTokens (h : l ∈ allDayTokens) (hno : ∀ f, ¬ TimedAt l f) :
    Accepted .createEvent l := by
  obtain ⟨name, hname, _, htail, rfl⟩ := Language.mem_mul.1 h
  simp only [mem_just_mul, mem_anyToken_mul] at htail
  obtain ⟨_, ⟨x, t, ht, rfl⟩, rfl⟩ := htail
  obtain ⟨r, hr⟩ := exists_repeatsShape ht (name.length + 2)
  have hfirst := firstAt_of_mem_names [] (l := x :: t) hname
    (List.mem_singleton_self _)
  simp only [List.nil_append, List.length_nil, Nat.zero_add] at hfirst
  refine (Shape.createAllDay (r := r) hno hfirst (length_pos_of_mem_names hname) ?_ ?_).accepted
  · simp
  · rw [List.drop_length_add_append]
    exact hr

theorem accepted_of_mem_singleEditTokens (h : l ∈ singleEditTokens) : Accepted .editEvent l := by
  obtain ⟨p, _, hrest, rfl⟩ := mem_anyToken_mul.1 h
  obtain ⟨name, hname, _, htail, rfl⟩ := Language.mem_mul.1 hrest
  simp only [mem_just_mul, mem_anyToken_mul] at htail
  obtain ⟨_, ⟨x, _, ⟨_, ⟨y, _, ⟨v, hv, rfl⟩, rfl⟩, rfl⟩, rfl⟩, rfl⟩ := htail
  exact (Shape.editSingle (firstAt_of_mem_names [p] hname (by simp))
    (Nat.add_le_add_left (length_pos_of_mem_names hname) 1) (drop_name [p] name _) hv).accepted

theorem accepted_of_mem_pluralEditTokens (h : l ∈ pluralEditTokens) : Accepted .editEvents l := by
  obtain ⟨p, _, hrest, rfl⟩ := mem_anyToken_mul.1 h
  obtain ⟨name, hname, _, htail, rfl⟩ := Language.mem_mul.1 hrest
  have hlen : 2 ≤ [p].length + name.length :=
    Nat.add_le_add_left (length_pos_of_mem_names hname) 1
  rw [add_mul, one_mul, mul_assoc] at htail
  simp only [Language.mem_add, mem_just_mul, mem_anyToken_mul] at htail
  obtain ⟨_, ⟨x, _, ⟨v, hv, rfl⟩, rfl⟩, rfl⟩ | ⟨v, hv, rfl⟩ := htail
  · exact (Shape.editFrom (firstAt_of_mem_names [p] hname (by simp)) hlen
      (drop_name [p] name _) hv).accepted
  · exact (Shape.editNamed (firstAt_of_mem_names [p] hname (by simp)) hlen
      (drop_name [p] name _) hv).accepted

def Viable (verb : Verb) (b : List Token) (n : Note) : Prop :=
  n.place ≤ b.length ∧ ∃ l, Accepted verb (b.take n.place ++ l) ∧ n.expected.Opens l

theorem viable_of_guides {α : Type} {p : Reading α} {L : Language Token} (hp : Guides [] p L)
    (hL : ∀ l ∈ L, Accepted verb l) (h : n ∈ (p b 0).2) : Viable verb b n := by
  obtain ⟨-, hlen, -, l, hl, hopens, -⟩ := hp.goesOn (Nat.zero_le _) h
  exact ⟨hlen, l, hL _ hl, hopens⟩

/-- The end may be expected only where what was read is a command by itself. -/
theorem viable_of_finishing {α : Type} {p : Reading α} {L : Language Token} {f : α → Outline}
    (hp : Guides [] p L) (hL : ∀ l ∈ L, Accepted verb l)
    (h : n ∈ ((do let a ← p; finish; return f a : Reading Outline) b 0).2) : Viable verb b n := by
  obtain h | ⟨a, j, ha, h⟩ := mem_notes_bind_iff.1 h
  · exact viable_of_guides hp hL h
  · obtain h | ⟨_, _, -, h⟩ := mem_notes_bind_iff.1 h
    · obtain ⟨hlt, rfl⟩ := mem_notes_finish_iff.1 h
      obtain ⟨-, -, hl⟩ := hp.reads (Nat.zero_le _) ha
      exact ⟨Nat.le_of_lt hlt, [], (List.append_nil (b.take j)).symm ▸ hL _ hl, rfl⟩
    · exact absurd h not_mem_notes_pure

/-- With no time in the tokens an all-day event is tried. Its notes guide to one, unless with what is
expected the tokens would just become those of a timed event. -/
theorem viable_allDay (hno : ∀ f, ¬ TimedAt b f) (h : n ∈ (allDay b 0).2) :
    Viable .createEvent b n := by
  obtain ⟨-, hlen, he, l, hl, hopens, havoids⟩ := guides_allDay.goesOn (Nat.zero_le _) h
  by_cases hnone : ∀ f, ¬ TimedAt (b.take n.place ++ l) f
  · exact ⟨hlen, l, accepted_of_mem_allDayTokens hl hnone, hopens⟩
  · simp only [not_forall, not_not] at hnone
    obtain ⟨f, hf⟩ := hnone
    obtain ⟨hfirst, hpos, hto, hlt⟩ := hf.inside hlen havoids
    have hend : b.length ≤ f + 3 := Nat.not_lt.1 fun hlong => hno f ⟨hfirst, hpos, hto, hlong⟩
    obtain ⟨t, l, rfl⟩ := List.exists_cons_of_ne_nil (hopens.ne_nil he)
    have hsame : ∀ m ≤ f + 2, (b.take n.place ++ [t])[m]? = b[m]? :=
      fun m hm => getElem?_take_append hlen (by omega)
    have hone : (b.take n.place ++ [t]).length = f + 4 := by
      rw [List.length_append, List.length_take, List.length_singleton]
      omega
    have htimed : TimedAt (b.take n.place ++ [t]) f := by
      refine ⟨hfirst.congr fun m hm => hsame m (by omega), hpos, ?_, by omega⟩
      rw [hsame _ (Nat.le_refl _), hto]
    have hshape : RepeatsShape (f + 4) ((b.take n.place ++ [t]).drop (f + 4)) none := by
      rw [List.drop_eq_nil_iff.2 (Nat.le_of_eq hone)]
      exact .none
    exact ⟨hlen, [t], (Shape.createTimed htimed hshape).accepted, hopens.congr he rfl⟩

theorem not_timedAt_take (h : ∀ f, ¬ TimedAt b f) (hj : j ≤ b.length) :
    ∀ f, ¬ TimedAt (b.take j) f := by
  intro f hf
  have hlen := hf.2.2.2
  rw [List.length_take] at hlen
  rw [← List.append_nil (b.take j)] at hf
  obtain ⟨hfirst, hpos, hto, -⟩ := hf.inside hj fun _ _ => List.not_mem_nil
  exact h f ⟨hfirst, hpos, hto, by omega⟩

theorem viable_create (h : n ∈ (create b 0).2) : Viable .createEvent b n := by
  obtain h | ⟨o, j, ho, h⟩ := mem_notes_bind_iff.1 h
  · obtain h | ⟨hno, h⟩ := mem_notes_orElse_iff.1 h
    · exact viable_of_guides guides_timed (fun _ => accepted_of_mem_timedTokens) h
    · exact viable_allDay (timed_eq_none_iff.1 hno) h
  · obtain h | ⟨_, _, -, h⟩ := mem_notes_bind_iff.1 h
    · obtain ⟨hlt, rfl⟩ := mem_notes_finish_iff.1 h
      refine ⟨Nat.le_of_lt hlt, [], ?_, rfl⟩
      rw [List.append_nil]
      obtain ho | ⟨hno, ho⟩ := orElse_eq_some_iff.1 ho
      · obtain ⟨-, -, hl⟩ := guides_timed.reads (Nat.zero_le _) ho
        exact accepted_of_mem_timedTokens hl
      · obtain ⟨-, hj, hl⟩ := guides_allDay.reads (Nat.zero_le _) ho
        exact accepted_of_mem_allDayTokens hl (not_timedAt_take (timed_eq_none_iff.1 hno) hj)
    · exact absurd h not_mem_notes_pure

theorem viable_notes (verb : Verb) (h : n ∈ (reading verb b 0).2) : Viable verb b n := by
  have hone : ∀ {v : Verb} {f : Span → Outline}, (∀ x, Accepted v [x]) →
      n ∈ ((do let s ← single .literal; finish; return f s : Reading Outline) b 0).2 →
      Viable v b n := by
    intro v f hv h
    refine viable_of_finishing (.single opens_word_literal) (fun l hl => ?_) h
    obtain ⟨x, rfl⟩ := List.length_eq_one_iff.1 hl
    exact hv x
  have hpath : ∀ {v : Verb} {f : Span → Outline}, (∀ x, Accepted v [x]) →
      n ∈ ((do let s ← single .anything; return f s : Reading Outline) b 0).2 →
      Viable v b n := by
    intro v f hv h
    refine viable_of_guides (.returns (.single (e := .anything) (List.cons_ne_nil _ _)) _)
      (fun l hl => ?_) h
    obtain ⟨x, rfl⟩ := List.length_eq_one_iff.1 hl
    exact hv x
  cases verb with
  | createEvent => exact viable_create h
  | editEvent =>
    exact viable_of_guides guides_singleEdit (fun _ => accepted_of_mem_singleEditTokens) h
  | editEvents =>
    exact viable_of_guides guides_pluralEdit (fun _ => accepted_of_mem_pluralEditTokens) h
  | printOn => exact hone (fun _ => (Shape.printOn rfl).accepted) h
  | showStatus => exact hone (fun _ => (Shape.showStatus rfl).accepted) h
  | exportCal => exact hpath (fun _ => (Shape.exportCal rfl).accepted) h
  | exportGoogle => exact hpath (fun _ => (Shape.exportGoogle rfl).accepted) h
  | printFrom =>
    have hrange : Guides [] (do
        let start ← single .literal
        keyword .to_
        let stop ← single .literal
        return (start, stop)) (anyToken * (just .to_ * anyToken)) :=
      .bind (.single opens_word_literal) fun _ => .bind (.keyword (by decide)) fun _ =>
        .returns (.single opens_word_literal) _
    refine viable_of_finishing (f := fun r => .printRange r.1 r.2) hrange (fun l hl => ?_) ?_
    · simp only [mem_just_mul, mem_anyToken_mul] at hl
      obtain ⟨x, _, ⟨_, hone, rfl⟩, rfl⟩ := hl
      obtain ⟨y, rfl⟩ := List.length_eq_one_iff.1 hone
      exact (Shape.printRange rfl).accepted
    · simp only [Reading.bind_assoc]
      exact h

theorem local_repeatsClause : Local repeatsClause :=
  .bind (.keyword _) fun _ => .bind (.single _) fun _ => .bind
    (.orElse
      (.bind (.keyword _) fun _ => .bind (.single _) fun _ => .bind (.keyword _) fun _ => .pure _)
      (.bind (.keyword _) fun _ => .bind (.single _) fun _ => .pure _))
    fun _ => .pure _

theorem local_timed : Local timed :=
  .bind (.nameUntil _) fun _ => .bind (.keyword _) fun _ => .bind (.single _) fun _ =>
    .bind (.keyword _) fun _ => .bind (.single _) fun _ =>
      .bind (.optional local_repeatsClause) fun _ => .pure _

theorem local_allDay : Local allDay :=
  .bind (.nameUntil _) fun _ => .bind (.keyword _) fun _ => .bind (.single _) fun _ =>
    .bind (.optional local_repeatsClause) fun _ => .pure _

/-- Tokens beyond the furthest note cannot change how the tokens after a verb are read. -/
theorem local_reading (verb : Verb) : Local (reading verb) := by
  cases verb with
  | createEvent =>
    exact .bind (.orElse local_timed local_allDay) fun _ => .bind .finish fun _ => .pure _
  | editEvent =>
    exact .bind (.single _) fun _ => .bind (.nameUntil _) fun _ => .bind (.keyword _) fun _ =>
      .bind (.single _) fun _ => .bind (.keyword _) fun _ => .bind (.single _) fun _ =>
        .bind (.keyword _) fun _ => .bind (.rest _) fun _ => .pure _
  | editEvents =>
    exact .bind (.single _) fun _ => .bind (.nameUntil _) fun _ =>
      .bind (.optional (.bind (.keyword _) fun _ => .single _)) fun _ =>
        .bind (.keyword _) fun _ => .bind (.rest _) fun _ => .pure _
  | printOn | showStatus =>
    exact .bind (.single _) fun _ => .bind .finish fun _ => .pure _
  | printFrom =>
    exact .bind (.single _) fun _ => .bind (.keyword _) fun _ => .bind (.single _) fun _ =>
      .bind .finish fun _ => .pure _
  | exportCal | exportGoogle => exact .bind (.single _) fun _ => .pure _

structure Pinpoints (verb : Verb) (b : List Token) (m : Misfit) : Prop where
  place_le : m.place ≤ b.length
  found_eq : m.found = b[m.place]?
  span_eq : m.span =
    if m.place = b.length then ⟨b.length, b.length⟩ else ⟨m.place, m.place + 1⟩
  viable : ∃ l, Accepted verb (b.take m.place ++ l)
  furthest : m.place < b.length → ∀ l, ¬ Accepted verb (b.take (m.place + 1) ++ l)
  expected_ne_nil : m.expected ≠ []
  keyword : ∀ k, .keyword k ∈ m.expected →
    ∃ l, Accepted verb (b.take m.place ++ .keyword k :: l)
  endOfInput : .endOfInput ∈ m.expected → Accepted verb (b.take m.place)

theorem run_eq_error_iff {p : Reading Outline} {m : Misfit} :
    p.run b = .error m ↔ (p b 0).1 = none ∧ Misfit.ofNotes b (p b 0).2 = m := by
  unfold Reading.run
  split <;> rename_i h <;> simp [h]

theorem read_eq_error (h : ¬ Accepted verb b) :
    (reading verb b 0).1 = none ∧
      read verb b = .error (Misfit.ofNotes b (reading verb b 0).2) := by
  cases hread : read verb b with
  | ok o => exact absurd ⟨o, hread⟩ h
  | error m =>
    obtain ⟨hnone, rfl⟩ := run_eq_error_iff.1 hread
    exact ⟨hnone, rfl⟩

theorem pinpoints_ofNotes (h : (reading verb b 0).1 = none) :
    Pinpoints verb b (Misfit.ofNotes b (reading verb b 0).2) := by
  generalize hm : Misfit.ofNotes b (reading verb b 0).2 = m
  have hnotes : (reading verb b 0).2 ≠ [] := by
    intro hnil
    refine absurd ((local_reading verb).begins (b := b) (i := 0) (m := 0) ⟨?_, ?_⟩) (by simp)
    · simp [hnil]
    · simp [h]
  have hviable : ∀ e ∈ m.expected, Viable verb b ⟨m.place, e⟩ := by
    intro e he
    rw [← hm, Misfit.mem_expected_iff] at he
    exact hm ▸ viable_notes verb he
  have hsome : m.expected ≠ [] := hm ▸ Misfit.expected_ne_nil hnotes
  obtain ⟨e, he⟩ := List.exists_mem_of_ne_nil _ hsome
  obtain ⟨hlen, l, hl, -⟩ := hviable e he
  have hfound : m.found = b[m.place]? := by
    rw [← hm]
    rfl
  refine ⟨hlen, hfound, ?_, ⟨l, hl⟩, fun hlt l hl => ?_, hsome, fun k hk => ?_, fun hend => ?_⟩
  · rw [Misfit.span, hfound]
    by_cases hend : m.place = b.length
    · simp [hend]
    · simp [hend, Nat.lt_of_le_of_ne hlen hend]
  -- all notes are up to the place, so what stands beyond it cannot turn the failure
  · have hwithin : Within (reading verb) b 0 (m.place + 1) := by
      refine ⟨fun n hn => Nat.lt_succ_of_le ?_, fun r hr => ?_⟩
      · rw [← hm]
        exact Misfit.place_le hn
      · rw [h] at hr
        cases hr
    have htake : (b.take (m.place + 1) ++ l).take (m.place + 1) = b.take (m.place + 1) :=
      List.take_left' (by rw [List.length_take]; omega)
    have hsame := (local_reading verb).agrees (Nat.succ_pos _) hlt htake hwithin
    obtain ⟨o, ho⟩ := hl
    obtain ⟨j, hj⟩ := run_eq_ok_iff.1 ho
    rw [hsame, h] at hj
    cases hj
  · obtain ⟨-, l, hl, hopens⟩ := hviable _ hk
    obtain ⟨t, l, rfl⟩ := List.exists_cons_of_ne_nil (hopens.ne_nil nofun)
    obtain rfl : t = .keyword k := Option.some.inj hopens
    exact ⟨l, hl⟩
  · obtain ⟨-, l, hl, rfl⟩ := hviable _ hend
    rwa [List.append_nil] at hl

/-- Tokens that fit no command have exactly one failure, and it is told at the true place: the end
of the longest start that can still be continued. What is expected there does continue it. -/
theorem exists_unique_misfit (verb : Verb) (b : List Token) (h : ¬ Accepted verb b) :
    ∃! m, read verb b = .error m ∧ Pinpoints verb b m := by
  obtain ⟨hnone, hread⟩ := read_eq_error h
  refine ⟨_, ⟨hread, pinpoints_ofNotes hnone⟩, fun m hm => ?_⟩
  exact Except.error.inj (hm.1.symm.trans hread)

def brokenRule : List Token :=
  [.word, .keyword .on_, .word, .keyword .repeats, .keyword .from_, .keyword .for_, .word, .word]

theorem exists_unique_misfit_brokenRule :
    ¬ Accepted .createEvent brokenRule ∧
      read .createEvent brokenRule = .error ⟨7, some .word, [.keyword .times]⟩ ∧
      ∃! m, read .createEvent brokenRule = .error m ∧ Pinpoints .createEvent brokenRule m := by
  have hread : read .createEvent brokenRule = .error ⟨7, some .word, [.keyword .times]⟩ := by rfl
  have hnot : ¬ Accepted .createEvent brokenRule := by
    rintro ⟨o, ho⟩
    cases hread.symm.trans ho
  exact ⟨hnot, hread, exists_unique_misfit .createEvent brokenRule hnot⟩

end Outline
end Daybook
