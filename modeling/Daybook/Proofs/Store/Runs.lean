import Daybook.Proofs.Store.Order

/-!
Runs of operations on a calendar. Main statement: after any run the calendar is the stable sort, by
start, of the accepted events in the order of their acceptance, each with the edits made on it.
-/
namespace Daybook

def Event.timing (e : Event) : Instant × Instant × Bool := (e.start, e.stop, e.allDay)

@[simp] theorem Event.timing_apply (e : Event) (p : Patch) : (e.apply p).timing = e.timing := by
  simp [timing]

namespace Store

inductive Operation where
  | insert (e : Event) (policy : Policy)
  | editOne (name : String) (start stop : Instant) (p : Patch)
  | editFrom (name : String) (start : Instant) (p : Patch)
  | editNamed (name : String) (p : Patch)
  deriving DecidableEq, Repr

def perform (s : Store) : Operation → Store
  | .insert e policy =>
    match s.insert e policy with
    | .ok (t, _) => t
    | .error _ => s
  | .editOne name start stop p => (s.editOne name start stop p).1
  | .editFrom name start p => (s.editFrom name start p).1
  | .editNamed name p => (s.editNamed name p).1

def run : Store → List Operation → Store
  | s, [] => s
  | s, op :: ops => run (s.perform op) ops

def accepts? (s : Store) : Operation → Option Event
  | .insert e policy =>
    match s.insert e policy with
    | .ok _ => some e
    | .error _ => none
  | _ => none

/-- The events whose insertion was accepted during a run, as they were inserted, in that order. -/
def accepted : Store → List Operation → List Event
  | _, [] => []
  | s, op :: ops => (s.accepts? op).toList ++ accepted (s.perform op) ops

def record (l : List Event) : Operation → List Event
  | .insert e policy =>
    if policy = .reject ∧ ∃ f ∈ l, f.Overlaps e then l else l ++ [e]
  | .editOne name start stop p =>
    editFirst (fun e => e.name == name && e.start == start && e.stop == stop) p l
  | .editFrom name start p =>
    l.map fun e => if e.name == name && decide (start ≤ e.start) then e.apply p else e
  | .editNamed name p => l.map fun e => if e.name == name then e.apply p else e

theorem run_append (s : Store) (ops more : List Operation) :
    s.run (ops ++ more) = (s.run ops).run more := by
  induction ops generalizing s with
  | nil => rfl
  | cons op ops ih => exact ih (s.perform op)

/-- An insertion is declined exactly under a rejecting policy and with an overlap. -/
theorem insert_eq (s : Store) (e : Event) (policy : Policy) :
    (s.insert e policy = .ok (s.add e, (s.overlapping e).map Event.name) ∧
      ¬ (policy = .reject ∧ ∃ f ∈ s.events, f.Overlaps e)) ∨
    (∃ name, s.insert e policy = .error name) ∧
      policy = .reject ∧ ∃ f ∈ s.events, f.Overlaps e := by
  have hmem : (∃ f ∈ s.events, f.Overlaps e) ↔ s.overlapping e ≠ [] := by
    simp [overlapping, List.filter_eq_nil_iff]
  rw [hmem]
  cases policy with
  | warn => exact .inl ⟨by simp [insert], by simp⟩
  | reject =>
    cases h : s.overlapping e with
    | nil => exact .inl ⟨by simp [insert, h], by simp⟩
    | cons f fs => exact .inr ⟨⟨f.name, by simp [insert, h]⟩, by simp⟩

theorem editFirst_orderedInsert_of_pos {matching : Event → Bool} {start : Instant} (p : Patch)
    (hm : ∀ e, matching e = true → e.start = start) {a : Event} (ha : matching a = true)
    (xs : List Event) :
    editFirst matching p (xs.orderedInsert (Event.notAfter · ·) a) =
      xs.orderedInsert (Event.notAfter · ·) (a.apply p) := by
  induction xs with
  | nil => simp [editFirst, ha]
  | cons b bs ih =>
    have hstart : (a.apply p).notAfter b = a.notAfter b := by simp [Event.notAfter]
    rw [List.orderedInsert_cons, List.orderedInsert_cons, hstart]
    by_cases hab : a.notAfter b
    · simp [hab, editFirst, ha]
    · have hb : matching b = false := by
        by_contra hb
        rw [Bool.not_eq_false] at hb
        apply hab
        rw [Event.notAfter_iff, hm a ha, hm b hb]
        exact Int.le_refl _
      simp [hab, editFirst, hb, ih]

theorem editFirst_orderedInsert_of_neg {matching : Event → Bool} (p : Patch) {a : Event}
    (ha : matching a = false) (xs : List Event) :
    editFirst matching p (xs.orderedInsert (Event.notAfter · ·) a) =
      (editFirst matching p xs).orderedInsert (Event.notAfter · ·) a := by
  induction xs with
  | nil => simp [editFirst, ha]
  | cons b bs ih =>
    have hstart : a.notAfter (b.apply p) = a.notAfter b := by simp [Event.notAfter]
    by_cases hab : a.notAfter b <;> by_cases hb : matching b <;>
      simp [editFirst, ha, hab, hb, hstart, ih]

/-- The first match is the same event before and after sorting, since all matches start together. -/
theorem editFirst_insertionSort {matching : Event → Bool} {start : Instant} (p : Patch)
    (hm : ∀ e, matching e = true → e.start = start) (l : List Event) :
    editFirst matching p (l.insertionSort (Event.notAfter · ·)) =
      (editFirst matching p l).insertionSort (Event.notAfter · ·) := by
  induction l with
  | nil => rfl
  | cons a l ih =>
    rw [List.insertionSort_cons]
    by_cases ha : matching a
    · simp [editFirst_orderedInsert_of_pos p hm ha, editFirst, ha]
    · rw [Bool.not_eq_true] at ha
      simp [editFirst_orderedInsert_of_neg p ha, editFirst, ha, ih]

theorem map_timing_editFirst (matching : Event → Bool) (p : Patch) (l : List Event) :
    (editFirst matching p l).map Event.timing = l.map Event.timing := by
  induction l with
  | nil => rfl
  | cons e l ih => by_cases h : matching e <;> simp [editFirst, h, ih]

theorem map_timing_editAll (matching : Event → Bool) (p : Patch) (l : List Event) :
    (l.map fun e => if matching e then e.apply p else e).map Event.timing =
      l.map Event.timing := by
  rw [List.map_map]
  apply List.map_congr_left
  intro e _
  by_cases h : matching e <;> simp [h]

/-- Step: sorting the record is what the calendar does. -/
theorem events_perform {s : Store} {l : List Event} (op : Operation)
    (h : s.events = l.mergeSort Event.notAfter) :
    (s.perform op).events = (record l op).mergeSort Event.notAfter := by
  cases op with
  | insert e policy =>
    have hmem : (∃ f ∈ s.events, f.Overlaps e) ↔ ∃ f ∈ l, f.Overlaps e := by
      simp only [h, List.mem_mergeSort]
    obtain ⟨hi, hno⟩ | ⟨⟨name, hi⟩, hyes⟩ := s.insert_eq e policy
    · rw [hmem] at hno
      simpa only [perform, hi, record, if_neg hno] using events_add_of_events_eq e h
    · rw [hmem] at hyes
      simpa only [perform, hi, record, if_pos hyes] using h
  | editOne name start stop p =>
    have hm : ∀ e : Event, (e.name == name && e.start == start && e.stop == stop) = true →
        e.start = start := by
      intro e he
      simp only [Bool.and_eq_true, beq_iff_eq] at he
      exact he.1.2
    simp only [perform, editOne, record, h,
      mergeSort_eq_insertionSort_of_total Event.notAfter_trans Event.notAfter_total]
    exact editFirst_insertionSort p hm l
  | editFrom name start p =>
    simp only [perform, editFrom, editAll, record, h]
    apply List.map_mergeSort
    intro a _ b _
    simp only [Event.notAfter, apply_ite Event.start, Event.start_apply, ite_self]
  | editNamed name p =>
    simp only [perform, editNamed, editAll, record, h]
    apply List.map_mergeSort
    intro a _ b _
    simp only [Event.notAfter, apply_ite Event.start, Event.start_apply, ite_self]

theorem map_timing_record {s : Store} {l : List Event} (op : Operation)
    (h : s.events = l.mergeSort Event.notAfter) :
    (record l op).map Event.timing =
      l.map Event.timing ++ (s.accepts? op).toList.map Event.timing := by
  cases op with
  | insert e policy =>
    have hmem : (∃ f ∈ s.events, f.Overlaps e) ↔ ∃ f ∈ l, f.Overlaps e := by
      simp only [h, List.mem_mergeSort]
    obtain ⟨hi, hno⟩ | ⟨⟨name, hi⟩, hyes⟩ := s.insert_eq e policy
    · rw [hmem] at hno
      simp [accepts?, hi, record, hno]
    · rw [hmem] at hyes
      simp only [accepts?, hi, record, if_pos hyes, Option.toList_none, List.map_nil,
        List.append_nil]
  | editOne name start stop p =>
    simp only [record, map_timing_editFirst, accepts?, Option.toList_none, List.map_nil,
      List.append_nil]
  | editFrom name start p =>
    simp only [record, map_timing_editAll, accepts?, Option.toList_none, List.map_nil,
      List.append_nil]
  | editNamed name p =>
    simp only [record, map_timing_editAll, accepts?, Option.toList_none, List.map_nil,
      List.append_nil]

/-- Run: the calendar stays the stable sort of the record, which holds what was accepted. -/
theorem events_run {s : Store} {l : List Event} (ops : List Operation)
    (h : s.events = l.mergeSort Event.notAfter) :
    (s.run ops).events = (ops.foldl record l).mergeSort Event.notAfter ∧
      (ops.foldl record l).map Event.timing =
        l.map Event.timing ++ (s.accepted ops).map Event.timing := by
  induction ops generalizing s l with
  | nil => exact ⟨h, by simp [accepted]⟩
  | cons op ops ih =>
    obtain ⟨hevents, htiming⟩ := ih (events_perform op h)
    refine ⟨hevents, ?_⟩
    rw [List.foldl_cons, htiming, map_timing_record op h, accepted, List.map_append,
      List.append_assoc]

theorem sublist_map_timing_perform (s : Store) (op : Operation) :
    (s.events.map Event.timing).Sublist ((s.perform op).events.map Event.timing) := by
  cases op with
  | insert e policy =>
    obtain ⟨hi, -⟩ | ⟨⟨name, hi⟩, -⟩ := s.insert_eq e policy
    · simpa only [perform, hi] using (s.sublist_add e).map Event.timing
    · simp [perform, hi]
  | editOne name start stop p => simp [perform, editOne, map_timing_editFirst]
  | editFrom name start p => simp only [perform, editFrom, editAll, map_timing_editAll]; rfl
  | editNamed name p => simp only [perform, editNamed, editAll, map_timing_editAll]; rfl

theorem sublist_map_timing_run (s : Store) (ops : List Operation) :
    (s.events.map Event.timing).Sublist ((s.run ops).events.map Event.timing) := by
  induction ops generalizing s with
  | nil => exact List.Sublist.refl _
  | cons op ops ih => exact (s.sublist_map_timing_perform op).trans (ih (s.perform op))

theorem Sorted.of_map_timing_eq {s t : Store} (hs : s.Sorted)
    (h : t.events.map Event.timing = s.events.map Event.timing) : t.Sorted := by
  have hmap : ∀ u : Store, u.Sorted ↔
      (u.events.map Event.timing).Pairwise fun x y => x.1 ≤ y.1 := by
    intro u
    rw [List.pairwise_map]
    rfl
  rw [hmap, h, ← hmap]
  exact hs

theorem Sorted.perform {s : Store} (hs : s.Sorted) (op : Operation) : (s.perform op).Sorted := by
  cases op with
  | insert e policy =>
    obtain ⟨hi, -⟩ | ⟨⟨name, hi⟩, -⟩ := s.insert_eq e policy
    · simpa only [Store.perform, hi] using hs.add e
    · simpa only [Store.perform, hi] using hs
  | editOne name start stop p => exact hs.of_map_timing_eq (map_timing_editFirst _ p _)
  | editFrom name start p => exact hs.of_map_timing_eq (map_timing_editAll _ p _)
  | editNamed name p => exact hs.of_map_timing_eq (map_timing_editAll _ p _)

theorem Sorted.run {s : Store} (hs : s.Sorted) (ops : List Operation) : (s.run ops).Sorted := by
  induction ops generalizing s with
  | nil => exact hs
  | cons op ops ih => exact ih (hs.perform op)

/-- Lists with the same timings are sorted alike, as far as timings show. -/
theorem map_timing_mergeSort_congr {l m : List Event}
    (h : l.map Event.timing = m.map Event.timing) :
    (l.mergeSort Event.notAfter).map Event.timing =
      (m.mergeSort Event.notAfter).map Event.timing := by
  have hmap : ∀ l : List Event, (l.mergeSort Event.notAfter).map Event.timing =
      (l.map Event.timing).mergeSort fun t u => decide (t.1 ≤ u.1) := fun l =>
    List.map_mergeSort fun _ _ _ _ => rfl
  rw [hmap, hmap, h]

/-- After any run from the empty calendar, timings are those of the stable sort of what was
accepted. A longer run keeps all of them in their order, what is declined changes nothing, and the
search puts a new event between those that do not start later and those that do. -/
theorem run_empty_is_stable_sort (ops : List Operation) :
    (empty.run ops).events.map Event.timing =
        ((empty.accepted ops).mergeSort Event.notAfter).map Event.timing ∧
      (empty.run ops).Sorted ∧
      ((empty.run ops).events.map Event.timing).Perm
        ((empty.accepted ops).map Event.timing) ∧
      (∀ more, ((empty.run ops).events.map Event.timing).Sublist
        ((empty.run (ops ++ more)).events.map Event.timing)) ∧
      (∀ e policy, (empty.run ops).accepts? (.insert e policy) = none →
        (empty.run ops).perform (.insert e policy) = empty.run ops) ∧
      ∀ e, ∃ before after, (empty.run ops).events = before ++ after ∧
        before.length = (empty.run ops).position e ∧
        ((empty.run ops).add e).events = before ++ e :: after ∧
        (∀ f ∈ before, f.start ≤ e.start) ∧ ∀ f ∈ after, e.start < f.start := by
  obtain ⟨hevents, htiming⟩ := events_run (s := empty) (l := []) ops (by simp [empty])
  have hsame : (empty.run ops).events.map Event.timing =
      ((empty.accepted ops).mergeSort Event.notAfter).map Event.timing := by
    rw [hevents]
    exact map_timing_mergeSort_congr (by simpa using htiming)
  have hsorted := sorted_empty.run ops
  refine ⟨hsame, hsorted, ?_, fun more => ?_, fun e policy h => ?_, fun e => ?_⟩
  · rw [hsame]
    exact (List.mergeSort_perm _ _).map Event.timing
  · rw [run_append]
    exact sublist_map_timing_run _ more
  · obtain ⟨hi, -⟩ | ⟨⟨name, hi⟩, -⟩ := (empty.run ops).insert_eq e policy
    · simp [accepts?, hi] at h
    · simp only [perform, hi]
  · exact hsorted.exists_split e

end Store
end Daybook
