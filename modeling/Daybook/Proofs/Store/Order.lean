import Daybook.Store
import Mathlib.Data.List.Sort

/-!
Calendars kept in order of start. Main statement: a new event goes behind all events that do not
start later, so that adding events one after another sorts them, and equal starts keep their order.
-/
namespace Daybook

def Event.notAfter (e f : Event) : Bool := decide (e.start ≤ f.start)

namespace Event

theorem notAfter_iff {e f : Event} : e.notAfter f = true ↔ e.start ≤ f.start := decide_eq_true_iff

theorem notAfter_eq_false_iff {e f : Event} : e.notAfter f = false ↔ f.start < e.start := by
  rw [notAfter, decide_eq_false_iff_not, Instant.le_def, Instant.lt_def]
  omega

theorem notAfter_trans (e f g : Event) (h : e.notAfter f) (h' : f.notAfter g) : e.notAfter g := by
  rw [notAfter_iff, Instant.le_def] at *
  omega

theorem notAfter_total (e f : Event) : e.notAfter f || f.notAfter e := by
  rw [Bool.or_eq_true, notAfter_iff, notAfter_iff, Instant.le_def, Instant.le_def]
  omega

end Event

section StableSort
variable {α : Type} {le : α → α → Bool}

/-- Inserting in front of equals and inserting behind them do not disturb each other. -/
theorem orderedInsert_takeWhile_dropWhile (trans : ∀ a b c, le a b → le b c → le a c)
    (total : ∀ a b, le a b || le b a) (a e : α) (xs : List α) :
    (xs.takeWhile (le · e) ++ e :: xs.dropWhile (le · e)).orderedInsert (le · ·) a =
      (xs.orderedInsert (le · ·) a).takeWhile (le · e) ++
        e :: (xs.orderedInsert (le · ·) a).dropWhile (le · e) := by
  induction xs with
  | nil => by_cases h : le a e <;> simp [h]
  | cons x xs ih =>
    by_cases hx : le x e
    · by_cases ha : le a x
      · simp [hx, ha, trans a x e ha hx]
      · simp [hx, ha, ih]
    · have hex : le e x := by simpa [hx] using total x e
      by_cases ha : le a x
      · by_cases hae : le a e <;> simp [hx, ha, hae]
      · have hae : ¬ le a e := fun h => ha (trans a e x h hex)
        simp [hx, ha, hae]

theorem mergeSort_eq_insertionSort_of_total (trans : ∀ a b c, le a b → le b c → le a c)
    (total : ∀ a b, le a b || le b a) (xs : List α) :
    xs.mergeSort le = xs.insertionSort (le · ·) := by
  induction xs with
  | nil => simp
  | cons a xs ih =>
    obtain ⟨l₁, l₂, hcons, hxs, hlt⟩ := List.mergeSort_cons trans total a xs
    have hsorted := List.pairwise_mergeSort trans total (a :: xs)
    rw [hcons] at hsorted ⊢
    rw [List.insertionSort_cons, ← ih, hxs, List.orderedInsert_eq_take_drop,
      List.takeWhile_append_of_pos (by simpa using hlt),
      List.dropWhile_append_of_pos (by simpa using hlt)]
    have hge := (List.pairwise_cons.1 (List.pairwise_append.1 hsorted).2.1).1
    cases l₂ with
    | nil => simp
    | cons b l₂ => simp [hge b]

/-- Sorting one more element at the end puts it behind all that do not come after it. -/
theorem mergeSort_concat (trans : ∀ a b c, le a b → le b c → le a c)
    (total : ∀ a b, le a b || le b a) (xs : List α) (e : α) :
    (xs ++ [e]).mergeSort le =
      (xs.mergeSort le).takeWhile (le · e) ++ e :: (xs.mergeSort le).dropWhile (le · e) := by
  simp only [mergeSort_eq_insertionSort_of_total trans total]
  induction xs with
  | nil => simp
  | cons a xs ih =>
    rw [List.cons_append, List.insertionSort_cons, List.insertionSort_cons, ih]
    exact orderedInsert_takeWhile_dropWhile trans total a e _

end StableSort

namespace Store

def Sorted (s : Store) : Prop := s.events.Pairwise fun e f => e.start ≤ f.start

theorem sorted_empty : empty.Sorted := List.Pairwise.nil

theorem sorted_of_events_eq {s : Store} {l : List Event}
    (h : s.events = l.mergeSort Event.notAfter) : s.Sorted := by
  rw [Sorted, h]
  exact (List.pairwise_mergeSort Event.notAfter_trans Event.notAfter_total l).imp
    Event.notAfter_iff.1

theorem Sorted.lt_of_mem_dropWhile {s : Store} (h : s.Sorted) (e : Event) {f : Event}
    (hf : f ∈ s.events.dropWhile (·.notAfter e)) : e.start < f.start := by
  cases hd : s.events.dropWhile (·.notAfter e) with
  | nil => simp [hd] at hf
  | cons g gs =>
    have hg : e.start < g.start := by
      have := List.head?_dropWhile_not (·.notAfter e) s.events
      rw [hd, List.head?_cons] at this
      exact Event.notAfter_eq_false_iff.1 this
    have hsorted : (g :: gs).Pairwise fun e f => e.start ≤ f.start :=
      hd ▸ List.Pairwise.sublist (List.dropWhile_sublist _) h
    rw [hd] at hf
    rcases List.mem_cons.1 hf with rfl | hf
    · exact hg
    · have hgf := (List.pairwise_cons.1 hsorted).1 f hf
      rw [Instant.le_def] at hgf
      rw [Instant.lt_def] at *
      omega

/-- In a sorted calendar the halving search ends where the events that do not start later end. -/
theorem Sorted.position_eq {s : Store} (h : s.Sorted) (e : Event) :
    s.position e = (s.events.takeWhile (·.notAfter e)).length := by
  have hsplit := List.takeWhile_append_dropWhile (p := (·.notAfter e)) (l := s.events)
  have hlast : ∀ f ∈ s.events.dropWhile (·.notAfter e), f.notAfter e = false := fun f hf =>
    Event.notAfter_eq_false_iff.2 (h.lt_of_mem_dropWhile e hf)
  have hfirst : ∀ f ∈ s.events.takeWhile (·.notAfter e), f.notAfter e = true := fun f hf =>
    List.all_eq_true.1 List.all_takeWhile f hf
  have := partitionPoint_append hfirst hlast (le_refl _)
  rw [hsplit] at this
  exact this

theorem Sorted.take_position {s : Store} (h : s.Sorted) (e : Event) :
    s.events.take (s.position e) = s.events.takeWhile (·.notAfter e) := by
  rw [h.position_eq]
  exact (List.prefix_iff_eq_take.1 (List.takeWhile_prefix _)).symm

theorem Sorted.drop_position {s : Store} (h : s.Sorted) (e : Event) :
    s.events.drop (s.position e) = s.events.dropWhile (·.notAfter e) := by
  have hdrop := @List.drop_left _ (s.events.takeWhile (·.notAfter e))
    (s.events.dropWhile (·.notAfter e))
  rwa [List.takeWhile_append_dropWhile, ← h.position_eq] at hdrop

theorem Sorted.start_le_of_mem_take {s : Store} (h : s.Sorted) {e f : Event}
    (hf : f ∈ s.events.take (s.position e)) : f.start ≤ e.start := by
  rw [h.take_position] at hf
  exact Event.notAfter_iff.1 (List.all_eq_true.1 List.all_takeWhile f hf)

theorem Sorted.start_lt_of_mem_drop {s : Store} (h : s.Sorted) {e f : Event}
    (hf : f ∈ s.events.drop (s.position e)) : e.start < f.start := by
  rw [h.drop_position] at hf
  exact h.lt_of_mem_dropWhile e hf

theorem events_add (s : Store) (e : Event) :
    (s.add e).events = s.events.take (s.position e) ++ e :: s.events.drop (s.position e) := rfl

/-- The search cuts the calendar between what does not start later and what does. -/
theorem Sorted.exists_split {s : Store} (h : s.Sorted) (e : Event) :
    ∃ before after, s.events = before ++ after ∧ before.length = s.position e ∧
      (s.add e).events = before ++ e :: after ∧
      (∀ f ∈ before, f.start ≤ e.start) ∧ ∀ f ∈ after, e.start < f.start := by
  refine ⟨s.events.take (s.position e), s.events.drop (s.position e),
    (List.take_append_drop _ _).symm, ?_, rfl, fun f hf => h.start_le_of_mem_take hf,
    fun f hf => h.start_lt_of_mem_drop hf⟩
  rw [h.take_position, h.position_eq]

theorem sublist_add (s : Store) (e : Event) : s.events.Sublist (s.add e).events := by
  rw [events_add]
  conv_lhs => rw [← List.take_append_drop (s.position e) s.events]
  exact (List.sublist_cons_self e _).append_left _

theorem Sorted.add {s : Store} (h : s.Sorted) (e : Event) : (s.add e).Sorted := by
  have hsplit : (s.events.take (s.position e) ++ s.events.drop (s.position e)).Pairwise
      fun e f => e.start ≤ f.start := by rwa [List.take_append_drop]
  obtain ⟨hl, hr, hlr⟩ := List.pairwise_append.1 hsplit
  rw [Sorted, events_add, List.pairwise_append, List.pairwise_cons]
  refine ⟨hl, ⟨fun f hf => ?_, hr⟩, fun f hf g hg => ?_⟩
  · exact Int.le_of_lt (h.start_lt_of_mem_drop hf)
  · rcases List.mem_cons.1 hg with rfl | hg
    · exact h.start_le_of_mem_take hf
    · exact hlr f hf g hg

theorem events_add_of_events_eq {s : Store} {l : List Event} (e : Event)
    (h : s.events = l.mergeSort Event.notAfter) :
    (s.add e).events = (l ++ [e]).mergeSort Event.notAfter := by
  have hs := sorted_of_events_eq h
  rw [events_add, hs.take_position, hs.drop_position, h,
    mergeSort_concat Event.notAfter_trans Event.notAfter_total]

end Store
end Daybook
