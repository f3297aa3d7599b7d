import Daybook.Proofs.Store.Series

/-!
What operations keep. Main statements: what holds of the events that come in and outlasts every
patch holds of all events after a run; and where no insertion lets an overlap in, the events lie one
behind the other.
-/
namespace Daybook.Store
variable {s t : Store} {e : Event} {P : Event → Prop} {op : Operation} {ops : List Operation}

namespace Operation

def Keeps (P : Event → Prop) : Operation → Prop
  | insert e _ => P e
  | editOne _ _ _ p | editFrom _ _ p | editNamed _ p => ∀ e, P e → P (e.apply p)

def Declines : Operation → Prop
  | insert _ policy => policy = .reject
  | _ => True

end Operation

theorem forall_mem_editFirst {matching : Event → Bool} {p : Patch} {l : List Event}
    (hp : ∀ e, P e → P (e.apply p)) (h : ∀ e ∈ l, P e) : ∀ e ∈ editFirst matching p l, P e := by
  induction l with
  | nil => exact h
  | cons e l ih =>
    obtain ⟨he, hl⟩ := List.forall_mem_cons.1 h
    rw [editFirst]
    split
    · exact List.forall_mem_cons.2 ⟨hp e he, hl⟩
    · exact List.forall_mem_cons.2 ⟨he, ih hl⟩

theorem forall_mem_editAll (matching : Event → Bool) {p : Patch} {l : List Event}
    (hp : ∀ e, P e → P (e.apply p)) (h : ∀ e ∈ l, P e) :
    ∀ e ∈ l.map fun e => if matching e then e.apply p else e, P e := by
  refine List.forall_mem_map.2 fun e he => ?_
  split
  · exact hp e (h e he)
  · exact h e he

/-- Step: what an operation keeps holds of every event after it. -/
theorem forall_mem_perform (hop : op.Keeps P) (h : ∀ e ∈ s.events, P e) :
    ∀ e ∈ (s.perform op).events, P e := by
  cases op with
  | insert e policy =>
    obtain ⟨hinsert, -⟩ | ⟨⟨name, hinsert⟩, -⟩ := s.insert_eq e policy
    · simp only [perform, hinsert, mem_events_add]
      rintro f (rfl | hf)
      · exact hop
      · exact h f hf
    · simpa only [perform, hinsert] using h
  | editOne name start stop p => exact forall_mem_editFirst hop h
  | editFrom name start p => exact forall_mem_editAll _ hop h
  | editNamed name p => exact forall_mem_editAll _ hop h

/-- Run: what every operation keeps holds of every event at the end. -/
theorem forall_mem_run (hops : ∀ op ∈ ops, op.Keeps P) (h : ∀ e ∈ s.events, P e) :
    ∀ e ∈ (s.run ops).events, P e := by
  induction ops generalizing s with
  | nil => exact h
  | cons op ops ih =>
    obtain ⟨hop, hops⟩ := List.forall_mem_cons.1 hops
    exact ih hops (forall_mem_perform hop h)

def Apart (s : Store) : Prop := s.events.Pairwise fun e f => ¬ e.Overlaps f

theorem apart_empty : empty.Apart := List.Pairwise.nil

theorem Apart.of_map_timing_eq (hs : s.Apart)
    (h : t.events.map Event.timing = s.events.map Event.timing) : t.Apart := by
  have hmap : ∀ u : Store, u.Apart ↔
      (u.events.map Event.timing).Pairwise fun x y => ¬ (x.1 < y.2.1 ∧ y.1 < x.2.1) := by
    intro u
    rw [List.pairwise_map]
    rfl
  rw [hmap, h, ← hmap]
  exact hs

theorem Apart.add (hs : s.Apart) (h : s.overlapping e = []) : (s.add e).Apart := by
  refine ((s.perm_events_add e).pairwise_iff fun hef hfe => hef (Event.overlaps_comm.1 hfe)).2 ?_
  refine List.pairwise_cons.2 ⟨fun f hf hoverlaps => ?_, hs⟩
  exact overlapping_eq_nil_iff.1 h f hf (Event.overlaps_comm.1 hoverlaps)

/-- Step: no operation that declines overlaps makes one. -/
theorem Apart.perform (hs : s.Apart) (hop : op.Declines) : (s.perform op).Apart := by
  cases op with
  | insert e policy =>
    obtain rfl : policy = .reject := hop
    cases h : s.overlapping e with
    | nil =>
      rw [Store.perform, insert_of_accepted (.inr h)]
      exact hs.add h
    | cons f fs =>
      rw [Store.perform, insert_of_declined h]
      exact hs
  | editOne name start stop p => exact hs.of_map_timing_eq (map_timing_editFirst _ p _)
  | editFrom name start p => exact hs.of_map_timing_eq (map_timing_editAll _ p _)
  | editNamed name p => exact hs.of_map_timing_eq (map_timing_editAll _ p _)

/-- Run: events that lie apart stay so. -/
theorem Apart.run (hs : s.Apart) (hops : ∀ op ∈ ops, op.Declines) : (s.run ops).Apart := by
  induction ops generalizing s with
  | nil => exact hs
  | cons op ops ih =>
    obtain ⟨hop, hops⟩ := List.forall_mem_cons.1 hops
    exact ih (hs.perform hop) hops

theorem Apart.pairwise_stop_le (h : s.Apart) (hs : s.Sorted) :
    s.events.Pairwise fun e f => e.stop ≤ f.start := by
  refine h.imp₂ (fun e f happart hle => ?_) hs
  have hlt := Instant.lt_def.1 f.start_lt_stop
  rw [Event.Overlaps, Instant.lt_def, Instant.lt_def] at happart
  rw [Instant.le_def] at hle ⊢
  omega

theorem Apart.pairwise_start_lt (h : s.Apart) (hs : s.Sorted) :
    s.events.Pairwise fun e f => e.start < f.start :=
  (h.pairwise_stop_le hs).imp fun {e f} hle => by
    have hlt := Instant.lt_def.1 e.start_lt_stop
    rw [Instant.le_def] at hle
    rw [Instant.lt_def]
    omega

theorem countP_covers_le_one {l : List Event} (h : l.Pairwise fun e f => e.stop ≤ f.start)
    (t : Instant) : l.countP (fun e => decide (e.Covers t)) ≤ 1 := by
  induction l with
  | nil => exact Nat.zero_le 1
  | cons e l ih =>
    obtain ⟨hfirst, hrest⟩ := List.pairwise_cons.1 h
    by_cases he : e.Covers t
    · have hnone : l.countP (fun f => decide (f.Covers t)) = 0 := by
        refine List.countP_eq_zero.2 fun f hf hcovers => ?_
        have hbehind := Instant.le_def.1 (hfirst f hf)
        have hbefore := Instant.lt_def.1 he.2
        have hfrom := Instant.le_def.1 (of_decide_eq_true hcovers).1
        omega
      simp [he, hnone]
    · simpa [List.countP_cons, he] using ih hrest

end Daybook.Store
