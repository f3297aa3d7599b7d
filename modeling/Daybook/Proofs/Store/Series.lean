import Daybook.Proofs.Store.Runs

/-!
Events added one after another. Main statement: where overlaps are declined, the events that come in
are the longest first part of the series that overlaps neither the calendar nor itself.
-/
namespace Daybook.Store
variable {s : Store} {e f : Event} {es os p q : List Event}

def addAll (s : Store) (es : List Event) : Store := es.foldl add s

def namesMet (s : Store) : List Event → List String
  | [] => []
  | e :: es => (s.overlapping e).map Event.name ++ namesMet (s.add e) es

def admitted (s : Store) : List Event → List Event
  | [] => []
  | e :: es => if s.overlapping e = [] then e :: admitted (s.add e) es else []

structure Admits (s : Store) (es : List Event) : Prop where
  old : ∀ e ∈ es, ∀ f ∈ s.events, ¬ f.Overlaps e
  apart : es.Pairwise fun f e => ¬ f.Overlaps e

theorem mem_events_add : f ∈ (s.add e).events ↔ f = e ∨ f ∈ s.events := by
  rw [events_add, List.mem_append, List.mem_cons, or_left_comm, ← List.mem_append,
    List.take_append_drop]

theorem perm_events_add (s : Store) (e : Event) : (s.add e).events.Perm (e :: s.events) := by
  have hsplit := List.take_append_drop (s.position e) s.events
  rw [events_add]
  exact List.perm_middle.trans (List.Perm.cons e (List.Perm.of_eq hsplit))

theorem perm_events_addAll (s : Store) (es : List Event) :
    (s.addAll es).events.Perm (s.events ++ es) := by
  induction es generalizing s with
  | nil =>
    rw [List.append_nil]
    exact List.Perm.refl _
  | cons e es ih =>
    refine (ih (s.add e)).trans (((s.perm_events_add e).append_right es).trans ?_)
    exact List.perm_middle.symm

theorem overlapping_eq_nil_iff : s.overlapping e = [] ↔ ∀ f ∈ s.events, ¬ f.Overlaps e := by
  simp [overlapping, List.filter_eq_nil_iff]

theorem admits_nil (s : Store) : s.Admits [] := ⟨by simp, List.Pairwise.nil⟩

theorem admits_cons : s.Admits (e :: es) ↔ s.overlapping e = [] ∧ (s.add e).Admits es := by
  rw [overlapping_eq_nil_iff]
  constructor
  · intro h
    obtain ⟨hfirst, hrest⟩ := List.pairwise_cons.1 h.apart
    refine ⟨h.old e List.mem_cons_self, fun f hf g hg => ?_, hrest⟩
    rcases mem_events_add.1 hg with rfl | hg
    · exact hfirst f hf
    · exact h.old f (List.mem_cons_of_mem e hf) g hg
  · intro h
    obtain ⟨he, hes⟩ := h
    refine ⟨fun f hf g hg => ?_, List.pairwise_cons.2 ⟨fun f hf => ?_, hes.apart⟩⟩
    · rcases List.mem_cons.1 hf with rfl | hf
      · exact he g hg
      · exact hes.old f hf g (mem_events_add.2 (.inr hg))
    · exact hes.old f hf e (mem_events_add.2 (.inl rfl))

theorem admits_append : s.Admits (es ++ os) ↔ s.Admits es ∧ (s.addAll es).Admits os := by
  induction es generalizing s with
  | nil => simp [admits_nil, addAll]
  | cons e es ih =>
    rw [List.cons_append, admits_cons, admits_cons, ih, and_assoc]
    rfl

/-- The longest first part of some events that a calendar admits. -/
structure LongestAdmitted (s : Store) (os p : List Event) : Prop where
  isPrefix : p <+: os
  admits : s.Admits p
  longest : ∀ q, q <+: os → s.Admits q → q.length ≤ p.length

theorem longestAdmitted_of_stop (hp : p <+: os) (hadmits : s.Admits p)
    (hstop : ∀ e rest, os = p ++ e :: rest → (s.addAll p).overlapping e ≠ []) :
    s.LongestAdmitted os p := by
  refine ⟨hp, hadmits, fun q hq hadmitsq => Nat.le_of_not_lt fun hlt => ?_⟩
  obtain ⟨t, rfl⟩ := List.prefix_of_prefix_length_le hp hq (Nat.le_of_lt hlt)
  cases t with
  | nil => simp at hlt
  | cons e t =>
    obtain ⟨u, rfl⟩ := hq
    have hnext := (admits_cons.1 (admits_append.1 hadmitsq).2).1
    exact hstop e (t ++ u) (by simp) hnext

theorem LongestAdmitted.stop (h : s.LongestAdmitted os p) {rest : List Event}
    (hos : os = p ++ e :: rest) : (s.addAll p).overlapping e ≠ [] := by
  intro hnone
  have hmore : s.Admits (p ++ [e]) :=
    admits_append.2 ⟨h.admits, admits_cons.2 ⟨hnone, admits_nil _⟩⟩
  have hle := h.longest (p ++ [e]) ⟨rest, by rw [hos]; simp⟩ hmore
  rw [List.length_append, List.length_singleton] at hle
  omega

/-- There is one such part. -/
theorem longestAdmitted_admitted (s : Store) (os : List Event) :
    s.LongestAdmitted os (s.admitted os) := by
  have key : s.admitted os <+: os ∧ s.Admits (s.admitted os) ∧ ∀ e rest,
      os = s.admitted os ++ e :: rest → (s.addAll (s.admitted os)).overlapping e ≠ [] := by
    induction os generalizing s with
    | nil => exact ⟨List.prefix_rfl, admits_nil s, by simp [admitted]⟩
    | cons o os ih =>
      obtain ⟨hfirst, hadmits, hstop⟩ := ih (s.add o)
      by_cases ho : s.overlapping o = []
      · rw [admitted, if_pos ho]
        refine ⟨(List.prefix_cons_inj o).2 hfirst, admits_cons.2 ⟨ho, hadmits⟩, ?_⟩
        intro e rest hos
        exact hstop e rest (List.cons.inj hos).2
      · rw [admitted, if_neg ho]
        refine ⟨List.nil_prefix, admits_nil s, fun e rest hos => ?_⟩
        obtain rfl := (List.cons.inj hos).1
        exact ho
  exact longestAdmitted_of_stop key.1 key.2.1 key.2.2

theorem admitted_eq_self_iff : s.admitted os = os ↔ s.Admits os := by
  have h := longestAdmitted_admitted s os
  constructor
  · intro heq
    exact heq ▸ h.admits
  · intro hall
    exact h.isPrefix.eq_of_length_le (h.longest os List.prefix_rfl hall)

theorem namesMet_of_admits (h : s.Admits es) : s.namesMet es = [] := by
  induction es generalizing s with
  | nil => rfl
  | cons e es ih =>
    obtain ⟨he, hes⟩ := admits_cons.1 h
    rw [namesMet, he, ih hes]
    rfl

theorem events_addAll_of_events_eq {l : List Event} (es : List Event)
    (h : s.events = l.mergeSort Event.notAfter) :
    (s.addAll es).events = (l ++ es).mergeSort Event.notAfter := by
  induction es generalizing s l with
  | nil => rw [List.append_nil, ← h, addAll, List.foldl_nil]
  | cons e es ih =>
    have hstep := ih (events_add_of_events_eq e h)
    rwa [List.append_assoc] at hstep

/-- A sorted calendar with a series added is the stable sort of both. -/
theorem Sorted.events_addAll (hs : s.Sorted) (es : List Event) :
    (s.addAll es).events = (s.events ++ es).mergeSort Event.notAfter := by
  refine events_addAll_of_events_eq es (List.mergeSort_of_pairwise ?_).symm
  exact hs.imp Event.notAfter_iff.2

theorem sublist_events_addAll (s : Store) (es : List Event) :
    s.events.Sublist (s.addAll es).events := by
  induction es generalizing s with
  | nil => exact List.Sublist.refl _
  | cons e es ih => exact (s.sublist_add e).trans (ih (s.add e))

theorem insert_of_accepted {policy : Policy} (h : policy = .warn ∨ s.overlapping e = []) :
    s.insert e policy = .ok (s.add e, (s.overlapping e).map Event.name) := by
  cases policy with
  | warn => rfl
  | reject =>
    obtain h | h := h
    · cases h
    · simp [insert, h]

theorem insert_of_declined {fs : List Event} (h : s.overlapping e = f :: fs) :
    s.insert e .reject = .error f.name := by
  simp [insert, h]

/-- Inserting events that are all accepted is adding them. -/
theorem run_insert {policy : Policy} (h : policy = .warn ∨ s.Admits es) :
    s.run (es.map (.insert · policy)) = s.addAll es := by
  induction es generalizing s with
  | nil => rfl
  | cons e es ih =>
    have hfirst : policy = .warn ∨ s.overlapping e = [] := h.imp_right fun h => (admits_cons.1 h).1
    have hrest : policy = .warn ∨ (s.add e).Admits es := h.imp_right fun h => (admits_cons.1 h).2
    have hperform : s.perform (.insert e policy) = s.add e := by
      rw [perform, insert_of_accepted hfirst]
    rw [List.map_cons, run, hperform, ih hrest]
    rfl

end Daybook.Store
