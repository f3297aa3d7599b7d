import Daybook.Proofs.Store.Edits

/-!
Operations that do not disturb each other. Main statement: edits of two properties, neither of them
the name, can change places, and so can such an edit and the insertion of an event that it does not
find; the calendar and what is returned are the same.
-/
namespace Daybook

def Event.key (e : Event) : String × Instant × Instant := (e.name, e.start, e.stop)

theorem Event.key_apply {e : Event} {p : Patch} (h : p.property ≠ "name") :
    (e.apply p).key = e.key := by
  rw [key, name_apply h, start_apply, stop_apply, key]

theorem partitionPoint_map {α β : Type} (f : α → β) (p : β → Bool) (fuel : Nat) (l : List α) :
    partitionPoint p fuel (l.map f) = partitionPoint (fun a => p (f a)) fuel l := by
  induction fuel generalizing l with
  | zero => rfl
  | succ fuel ih =>
    rw [partitionPoint, partitionPoint, List.length_map, ← List.map_drop, ← List.map_take]
    cases l.drop (l.length / 2) with
    | nil => rfl
    | cons a right => simp only [List.map_cons, ih]

namespace Store
variable {s t : Store} {op op' : Operation} {p q : Patch} {e : Event} {policy : Policy}
  {l : List Event} {matching : Event → Bool}

inductive Answer where
  | inserted (conflicts : List String)
  | declined (name : String)
  | found (some_ : Bool)
  | edited (count : Nat)
  deriving DecidableEq, Repr

def answer (s : Store) : Operation → Answer
  | .insert e policy =>
    match s.insert e policy with
    | .ok (_, conflicts) => .inserted conflicts
    | .error name => .declined name
  | .editOne name start stop p => .found (s.editOne name start stop p).2
  | .editFrom name start p => .edited (s.editFrom name start p).2
  | .editNamed name p => .edited (s.editNamed name p).2

structure Commute (s : Store) (op op' : Operation) : Prop where
  store : (s.perform op).perform op' = (s.perform op').perform op
  first : (s.perform op').answer op = s.answer op
  second : (s.perform op).answer op' = s.answer op'

theorem eq_of_events (h : s.events = t.events) : s = t := by
  cases s
  cases t
  exact congrArg Store.mk h

theorem position_congr (h : t.events.map Event.key = s.events.map Event.key) (e : Event) :
    t.position e = s.position e := by
  have hkeys : ∀ u : Store, u.position e = partitionPoint (fun k => decide (k.2.1 ≤ e.start))
      (u.events.map Event.key).length (u.events.map Event.key) := by
    intro u
    rw [partitionPoint_map, List.length_map]
    rfl
  rw [hkeys, hkeys, h]

theorem names_overlapping_congr (h : t.events.map Event.key = s.events.map Event.key) (e : Event) :
    (t.overlapping e).map Event.name = (s.overlapping e).map Event.name := by
  have hkeys : ∀ u : Store, (u.overlapping e).map Event.name =
      ((u.events.map Event.key).filter fun k =>
        decide (k.2.1 < e.stop ∧ e.start < k.2.2)).map Prod.fst := by
    intro u
    rw [List.filter_map, List.map_map]
    rfl
  rw [hkeys, hkeys, h]

theorem Operation.exists_finds_eq (op : Operation) :
    ∃ test : String × Instant × Instant → Bool, op.finds = fun e => test e.key := by
  cases op with
  | insert => exact ⟨fun _ => false, rfl⟩
  | editOne name start stop => exact ⟨fun k => k.1 == name && k.2.1 == start && k.2.2 == stop, rfl⟩
  | editFrom name start => exact ⟨fun k => k.1 == name && decide (start ≤ k.2.1), rfl⟩
  | editNamed name => exact ⟨fun k => k.1 == name, rfl⟩

theorem answer_insert (s : Store) (e : Event) (policy : Policy) :
    s.answer (.insert e policy) =
      match policy, (s.overlapping e).map Event.name with
      | .reject, name :: _ => .declined name
      | _, conflicts => .inserted conflicts := by
  cases policy with
  | warn => rfl
  | reject => cases h : s.overlapping e <;> simp [answer, insert, h]

theorem answer_edit (hop : op.patch? = some p) :
    s.answer op =
      if op.single then .found (s.events.any op.finds) else .edited (s.events.countP op.finds) := by
  cases op with
  | insert => cases hop
  | editOne | editFrom | editNamed => rfl

theorem answer_congr (h : t.events.map Event.key = s.events.map Event.key) (op : Operation) :
    t.answer op = s.answer op := by
  cases hop : op.patch? with
  | none =>
    cases op with
    | insert e policy => rw [answer_insert, answer_insert, names_overlapping_congr h]
    | editOne | editFrom | editNamed => cases hop
  | some p =>
    obtain ⟨test, htest⟩ := op.exists_finds_eq
    have hany : ∀ u : Store, u.events.any op.finds = (u.events.map Event.key).any test := by
      intro u
      rw [List.any_map, htest]
      rfl
    have hcount : ∀ u : Store, u.events.countP op.finds = (u.events.map Event.key).countP test := by
      intro u
      rw [List.countP_map, htest]
      rfl
    rw [answer_edit hop, answer_edit hop, hany, hany, hcount, hcount, h]

theorem map_key_perform (hop : op.patch? = some p) (hp : p.property ≠ "name") :
    (s.perform op).events.map Event.key = s.events.map Event.key := by
  refine List.ext_getElem? fun i => ?_
  rw [List.getElem?_map, List.getElem?_map, (patched_perform hop).getElem? i, Option.map_map]
  refine congrArg (Option.map · _) (funext fun e => ?_)
  by_cases he : op.Picks s i e <;> simp [he, Event.key_apply hp]

theorem picks_congr {i : Nat} {f : Event} (h : t.events.map Event.key = s.events.map Event.key)
    (hkey : f.key = e.key) : op.Picks t i f ↔ op.Picks s i e := by
  obtain ⟨test, htest⟩ := op.exists_finds_eq
  have hearlier : ∀ u : Store, (u.events.take i).any op.finds =
      ((u.events.map Event.key).take i).any test := by
    intro u
    rw [← List.map_take, List.any_map, htest]
    rfl
  have hfinds : op.finds f = op.finds e := by simp only [htest, hkey]
  rw [picks_iff, picks_iff, hearlier, hearlier, h, hfinds]

theorem perform_edits_comm (hop : op.patch? = some p) (hop' : op'.patch? = some q)
    (hp : p.property ≠ "name") (hq : q.property ≠ "name") (hpq : p.property ≠ q.property) :
    (s.perform op).perform op' = (s.perform op').perform op := by
  classical
  have hkeys := map_key_perform (s := s) hop hp
  have hkeys' := map_key_perform (s := s) hop' hq
  refine eq_of_events (List.ext_getElem? fun i => ?_)
  rw [(patched_perform hop').getElem? i, (patched_perform hop).getElem? i,
    (patched_perform hop).getElem? i, (patched_perform hop').getElem? i, Option.map_map,
    Option.map_map]
  refine congrArg (Option.map · _) (funext fun e => ?_)
  -- what the first edit makes of the event has its key, so the second is made here as before
  have hlater : op'.Picks (s.perform op) i (if op.Picks s i e then e.apply p else e) ↔
      op'.Picks s i e :=
    picks_congr hkeys (by split <;> simp [Event.key_apply hp])
  have hlater' : op.Picks (s.perform op') i (if op'.Picks s i e then e.apply q else e) ↔
      op.Picks s i e :=
    picks_congr hkeys' (by split <;> simp [Event.key_apply hq])
  simp only [Function.comp_apply, hlater, hlater']
  by_cases he : op.Picks s i e <;> by_cases he' : op'.Picks s i e <;>
    simp [he, he', Event.apply_comm hpq]

theorem commute_edits (hop : op.patch? = some p) (hop' : op'.patch? = some q)
    (hp : p.property ≠ "name") (hq : q.property ≠ "name") (hpq : p.property ≠ q.property) :
    s.Commute op op' :=
  ⟨perform_edits_comm hop hop' hp hq hpq, answer_congr (map_key_perform hop' hq) op,
    answer_congr (map_key_perform hop hp) op'⟩

/-- An event that is not found may stand anywhere. -/
theorem editFirst_insert (h : matching e = false) (k : Nat) (l : List Event) :
    editFirst matching p (l.take k ++ e :: l.drop k) =
      (editFirst matching p l).take k ++ e :: (editFirst matching p l).drop k := by
  induction l generalizing k with
  | nil => simp [editFirst, h]
  | cons a l ih =>
    cases k with
    | zero => simp [editFirst, h]
    | succ k => by_cases ha : matching a <;> simp [editFirst, ha, ih]

theorem events_perform_add (hop : op.patch? = some p) (h : ¬ op.Finds e) :
    ((s.add e).perform op).events =
      (s.perform op).events.take (s.position e) ++ e :: (s.perform op).events.drop (s.position e) := by
  have hnot : op.finds e = false := by rwa [← Bool.not_eq_true, Operation.finds_iff]
  rw [events_perform_edit hop, events_perform_edit hop, events_add]
  cases op.single with
  | false => simp [hnot, List.map_take, List.map_drop]
  | true => exact editFirst_insert hnot _ _

theorem perform_add_comm (hop : op.patch? = some p) (hp : p.property ≠ "name")
    (h : ¬ op.Finds e) : (s.perform op).add e = (s.add e).perform op := by
  have hplace := position_congr (map_key_perform (s := s) hop hp) e
  refine eq_of_events ?_
  rw [events_perform_add hop h, events_add, hplace]

theorem answer_add (hop : op.patch? = some p) (h : ¬ op.Finds e) :
    (s.add e).answer op = s.answer op := by
  have hnot : op.finds e = false := by rwa [← Bool.not_eq_true, Operation.finds_iff]
  have hperm := s.perm_events_add e
  rw [answer_edit hop, answer_edit hop, hperm.any_eq, hperm.countP_eq]
  simp [hnot]

theorem perform_insert (s : Store) (e : Event) (policy : Policy) :
    s.perform (.insert e policy) =
      match s.answer (.insert e policy) with
      | .declined _ => s
      | _ => s.add e := by
  rw [perform, answer]
  obtain ⟨hinsert, -⟩ | ⟨⟨name, hinsert⟩, -⟩ := s.insert_eq e policy <;> rw [hinsert]

theorem commute_insert (hop : op.patch? = some p) (hp : p.property ≠ "name") (h : ¬ op.Finds e)
    (policy : Policy) : s.Commute op (.insert e policy) := by
  have hanswer := answer_congr (map_key_perform (s := s) hop hp) (.insert e policy)
  have hstore := perform_add_comm (s := s) hop hp h
  refine ⟨?_, ?_, hanswer⟩
  · rw [perform_insert, perform_insert, hanswer]
    cases s.answer (.insert e policy) with
    | declined => rfl
    | inserted | found | edited => exact hstore
  · rw [perform_insert]
    cases s.answer (.insert e policy) with
    | declined => rfl
    | inserted | found | edited => exact answer_add hop h

/-- An edit that sets another property than the name can change places with every edit of a third
property, whichever events the two are made on, and with every insertion of an event that it does
not find, whether or not the event is declined. -/
theorem edits_commute (s : Store) (hop : op.patch? = some p) (hp : p.property ≠ "name") :
    (∀ op' q, op'.patch? = some q → q.property ≠ "name" → p.property ≠ q.property →
        s.Commute op op') ∧
      ∀ e policy, ¬ op.Finds e → s.Commute op (.insert e policy) :=
  ⟨fun _ _ hop' hq hpq => commute_edits hop hop' hp hq hpq,
    fun _ policy h => commute_insert hop hp h policy⟩

def earlyCall : Event :=
  ⟨"Call", (Instant.ofNumber? 63850842000).get (Eq.refl true),
    (Instant.ofNumber? 63850845600).get (Eq.refl true), false, "", "", true, by decide⟩

theorem edits_commute_standups :
    let s := empty.run standups
    let move := Operation.editOne "Standup" ⟨63850842000, by decide, by decide⟩
      ⟨63850842900, by decide, by decide⟩ (.location "Room 4")
    let hide := Operation.editNamed "Standup" (.visibility false)
    s.answer move = .found true ∧ s.answer hide = .edited 3 ∧ s.Commute move hide ∧
      s.answer (.insert earlyCall .warn) = .inserted ["Standup", "Standup"] ∧
      s.Commute move (.insert earlyCall .warn) ∧
      s.answer (.insert earlyCall .reject) = .declined "Standup" ∧
      s.Commute move (.insert earlyCall .reject) := by
  intro s move hide
  have hmove : move.patch? = some (.location "Room 4") := rfl
  obtain ⟨hedits, hinserts⟩ := edits_commute s hmove (by decide)
  have hfree : ¬ move.Finds earlyCall := fun h => absurd h.1 (by decide)
  exact ⟨by decide +kernel, by decide +kernel, hedits hide _ rfl (by decide) (by decide),
    by decide +kernel, hinserts earlyCall .warn hfree, by decide +kernel,
    hinserts earlyCall .reject hfree⟩

end Store
end Daybook
