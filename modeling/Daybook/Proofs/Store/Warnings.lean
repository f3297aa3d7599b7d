import Mathlib.Algebra.BigOperators.Fin
import Daybook.Proofs.Store.Series

/-!
Warnings along a run. Main statement: where overlaps are only warned of, as many names are returned
over a whole run as there are pairs of inserted events that overlap, in whatever order the events
come and whatever is edited in between.
-/
namespace Daybook.Store
variable {s : Store} {e : Event} {l m : List Event} {op : Operation} {ops : List Operation}

namespace Operation

def event? : Operation → Option Event
  | insert e _ => some e
  | _ => none

def Warns : Operation → Prop
  | insert _ policy => policy = .warn
  | _ => True

end Operation

def inserted (ops : List Operation) : List Event := ops.filterMap Operation.event?

def conflicts (s : Store) : Operation → List String
  | .insert e policy =>
    match s.insert e policy with
    | .ok (_, names) => names
    | .error _ => []
  | _ => []

def allConflicts : Store → List Operation → List String
  | _, [] => []
  | s, op :: ops => s.conflicts op ++ allConflicts (s.perform op) ops

def overlaps : List Event → Nat
  | [] => 0
  | e :: l => l.countP (fun f => decide (f.Overlaps e)) + overlaps l

theorem overlaps_concat (l : List Event) (e : Event) :
    overlaps (l ++ [e]) = overlaps l + l.countP fun f => decide (f.Overlaps e) := by
  induction l with
  | nil => rfl
  | cons f l ih =>
    have hcomm : decide (e.Overlaps f) = decide (f.Overlaps e) :=
      decide_eq_decide.2 Event.overlaps_comm
    simp only [List.cons_append, overlaps, ih, List.countP_append, List.countP_cons,
      List.countP_nil, hcomm]
    omega

theorem overlaps_of_perm (h : l.Perm m) : overlaps l = overlaps m := by
  induction h with
  | nil => rfl
  | cons e h ih => rw [overlaps, overlaps, h.countP_eq, ih]
  | swap e f l =>
    have hcomm : decide (e.Overlaps f) = decide (f.Overlaps e) :=
      decide_eq_decide.2 Event.overlaps_comm
    simp only [overlaps, List.countP_cons, hcomm]
    omega
  | trans _ _ ih ih' => exact ih.trans ih'

theorem countP_eq_sum (p : Event → Bool) (l : List Event) :
    l.countP p = ∑ j : Fin l.length, if p l[j] then 1 else 0 := by
  induction l with
  | nil => rfl
  | cons e l ih =>
    simp only [List.length_cons, Fin.sum_univ_succ]
    rw [List.countP_cons, ih, Nat.add_comm]
    rfl

/-- The pairs are those of two positions in the list, the first before the second. -/
theorem overlaps_eq_card (l : List Event) :
    overlaps l = (Finset.univ.filter fun p : Fin l.length × Fin l.length =>
      p.1 < p.2 ∧ l[p.1].Overlaps l[p.2]).card := by
  rw [Finset.card_filter, Fintype.sum_prod_type]
  induction l with
  | nil => rfl
  | cons e l ih =>
    simp only [List.length_cons, Fin.sum_univ_succ]
    rw [overlaps, ih, countP_eq_sum]
    simp [Event.overlaps_comm]

theorem countP_overlaps_of_perm (e : Event)
    (h : (l.map Event.timing).Perm (m.map Event.timing)) :
    l.countP (fun f => decide (f.Overlaps e)) = m.countP fun f => decide (f.Overlaps e) := by
  have htiming : ∀ l : List Event, l.countP (fun f => decide (f.Overlaps e)) =
      (l.map Event.timing).countP fun t => decide (t.1 < e.stop ∧ e.start < t.2.1) := by
    intro l
    rw [List.countP_map]
    rfl
  rw [htiming, htiming, h.countP_eq]

theorem length_conflicts (hop : op.Warns) :
    (s.conflicts op).length =
      (op.event?.map fun e => s.events.countP fun f => decide (f.Overlaps e)).getD 0 := by
  cases op with
  | insert e policy =>
    obtain rfl : policy = .warn := hop
    rw [conflicts, insert_of_accepted (.inl rfl)]
    simp [Operation.event?, overlapping, List.countP_eq_length_filter]
  | editOne | editFrom | editNamed => rfl

theorem perm_map_timing_perform (hop : op.Warns)
    (h : (s.events.map Event.timing).Perm (l.map Event.timing)) :
    ((s.perform op).events.map Event.timing).Perm
      ((l ++ op.event?.toList).map Event.timing) := by
  cases op with
  | insert e policy =>
    obtain rfl : policy = .warn := hop
    have hadd := ((s.perm_events_add e).map Event.timing).trans (h.cons e.timing)
    rw [perform, insert_of_accepted (.inl rfl)]
    rw [List.map_append]
    exact hadd.trans (List.perm_append_singleton _ _).symm
  | editOne name start stop p =>
    simpa [perform, editOne, map_timing_editFirst, Operation.event?] using h
  | editFrom name start p =>
    simpa only [perform, editFrom, editAll, map_timing_editAll, Operation.event?,
      Option.toList_none, List.append_nil] using h
  | editNamed name p =>
    simpa only [perform, editNamed, editAll, map_timing_editAll, Operation.event?,
      Option.toList_none, List.append_nil] using h

/-- Run: what is returned makes up for the pairs that come in. -/
theorem length_allConflicts (hops : ∀ op ∈ ops, op.Warns)
    (h : (s.events.map Event.timing).Perm (l.map Event.timing)) :
    overlaps l + (s.allConflicts ops).length = overlaps (l ++ inserted ops) := by
  induction ops generalizing s l with
  | nil => simp [allConflicts, inserted]
  | cons op ops ih =>
    obtain ⟨hop, hops⟩ := List.forall_mem_cons.1 hops
    have hrest := ih hops (perm_map_timing_perform hop h)
    have hsplit : l ++ inserted (op :: ops) = (l ++ op.event?.toList) ++ inserted ops := by
      rw [inserted, List.filterMap_cons]
      cases op.event? <;> simp [inserted]
    rw [allConflicts, List.length_append, length_conflicts hop, hsplit, ← hrest]
    cases op.event? with
    | none => simp
    | some e =>
      rw [Option.toList_some, overlaps_concat, ← countP_overlaps_of_perm e h]
      simp only [Option.map_some, Option.getD_some]
      omega

/-- Where no operation declines an event, the names returned over a run are as many as the pairs of
positions in the list of the inserted events whose events overlap, and another run that inserts the
same events in any order returns as many. -/
theorem length_allConflicts_empty (hops : ∀ op ∈ ops, op.Warns) :
    (empty.allConflicts ops).length =
        (Finset.univ.filter fun p : Fin (inserted ops).length × Fin (inserted ops).length =>
          p.1 < p.2 ∧ (inserted ops)[p.1].Overlaps (inserted ops)[p.2]).card ∧
      ∀ ops' : List Operation, (∀ op ∈ ops', op.Warns) → (inserted ops').Perm (inserted ops) →
        (empty.allConflicts ops').length = (empty.allConflicts ops).length := by
  have hcount : ∀ ops : List Operation, (∀ op ∈ ops, op.Warns) →
      (empty.allConflicts ops).length = overlaps (inserted ops) := by
    intro ops hops
    have h := length_allConflicts (s := empty) (l := []) hops (List.Perm.refl _)
    simpa [overlaps] using h
  refine ⟨(hcount ops hops).trans (overlaps_eq_card _), fun ops' hops' hperm => ?_⟩
  rw [hcount ops' hops', hcount ops hops, overlaps_of_perm hperm]

def busyMorning : List Operation :=
  [.insert ⟨"Breakfast", (Instant.ofNumber? 63850842000).get (Eq.refl true),
      (Instant.ofNumber? 63850848300).get (Eq.refl true), false, "", "", true, by decide⟩ .warn,
    .editNamed "Breakfast" (.name "Coffee"),
    .insert ⟨"Talk", (Instant.ofNumber? 63850847400).get (Eq.refl true),
      (Instant.ofNumber? 63850852800).get (Eq.refl true), false, "", "", true, by decide⟩ .warn,
    .insert ⟨"Call", (Instant.ofNumber? 63850845600).get (Eq.refl true),
      (Instant.ofNumber? 63850849200).get (Eq.refl true), false, "", "", true, by decide⟩ .warn,
    .insert ⟨"Lunch", (Instant.ofNumber? 63850852800).get (Eq.refl true),
      (Instant.ofNumber? 63850856400).get (Eq.refl true), false, "", "", true, by decide⟩ .warn]

theorem length_allConflicts_busyMorning :
    (∀ op ∈ busyMorning, op.Warns) ∧
      empty.allConflicts busyMorning = ["Coffee", "Coffee", "Talk"] ∧
      (Finset.univ.filter fun p : Fin (inserted busyMorning).length ×
          Fin (inserted busyMorning).length => p.1 < p.2 ∧
            (inserted busyMorning)[p.1].Overlaps (inserted busyMorning)[p.2]).card = 3 ∧
      (empty.allConflicts busyMorning.reverse).length = 3 := by
  have hops : ∀ op ∈ busyMorning, op.Warns := by simp [busyMorning, Operation.Warns]
  have hnames : empty.allConflicts busyMorning = ["Coffee", "Coffee", "Talk"] := by decide +kernel
  have hreverse : (inserted busyMorning.reverse).Perm (inserted busyMorning) :=
    (List.reverse_perm busyMorning).filterMap _
  obtain ⟨hpairs, hany⟩ := length_allConflicts_empty hops
  rw [hnames] at hpairs hany
  refine ⟨hops, hnames, hpairs.symm, hany _ (fun op hop => ?_) hreverse⟩
  exact hops op (List.mem_reverse.1 hop)

end Daybook.Store
