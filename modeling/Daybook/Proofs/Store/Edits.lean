import Daybook.Proofs.Store.Names

/-!
Edits by place. Main statement: an edit patches exactly the events that meet its condition, the edit
of one event only the first of them, each where it stands; and in a sorted calendar what is edited
from an instant on is the rear part of the events of a name.
-/
namespace Daybook.Store
variable {s t : Store} {p : Patch} {op : Operation} {l : List Event} {matching : Event → Bool}

namespace Operation

def finds : Operation → Event → Bool
  | insert _ _, _ => false
  | editOne name start stop _, e => e.name == name && e.start == start && e.stop == stop
  | editFrom name start _, e => e.name == name && decide (start ≤ e.start)
  | editNamed name _, e => e.name == name

def single : Operation → Bool
  | editOne .. => true
  | _ => false

def Picks (s : Store) (op : Operation) (i : Nat) (e : Event) : Prop :=
  op.Finds e ∧ (op.single = true → ∀ f ∈ s.events.take i, ¬ op.Finds f)

theorem finds_iff {e : Event} : op.finds e = true ↔ op.Finds e := by
  cases op <;> simp [finds, Finds, and_assoc]

end Operation

structure Patched (s t : Store) (p : Patch) (picked : Nat → Event → Prop) : Prop where
  length : t.events.length = s.events.length
  timing : t.events.map Event.timing = s.events.map Event.timing
  here : ∀ i e, s.events[i]? = some e → picked i e → t.events[i]? = some (e.apply p)
  elsewhere : ∀ i e, s.events[i]? = some e → ¬ picked i e → t.events[i]? = some e

theorem Patched.congr {picked picked' : Nat → Event → Prop} (h : Patched s t p picked)
    (hpicked : ∀ i e, picked' i e ↔ picked i e) : Patched s t p picked' :=
  ⟨h.length, h.timing, fun i e he hi => h.here i e he ((hpicked i e).1 hi),
    fun i e he hi => h.elsewhere i e he (mt (hpicked i e).2 hi)⟩

open Classical in
theorem Patched.getElem? {picked : Nat → Event → Prop} (h : Patched s t p picked) (i : Nat) :
    t.events[i]? = s.events[i]?.map fun e => if picked i e then e.apply p else e := by
  cases he : s.events[i]? with
  | none => simpa [h.length] using he
  | some e =>
    by_cases hi : picked i e
    · simpa [hi] using h.here i e he hi
    · simpa [hi] using h.elsewhere i e he hi

theorem getElem?_editFirst (i : Nat) :
    (editFirst matching p l)[i]? =
      l[i]?.map fun e => if matching e && !(l.take i).any matching then e.apply p else e := by
  induction l generalizing i with
  | nil => rfl
  | cons a l ih =>
    cases i with
    | zero => by_cases ha : matching a <;> simp [editFirst, ha]
    | succ i => by_cases ha : matching a <;> simp [editFirst, ha, ih]

theorem events_perform_edit (hop : op.patch? = some p) :
    (s.perform op).events =
      if op.single then editFirst op.finds p s.events
      else s.events.map fun e => if op.finds e then e.apply p else e := by
  cases op with
  | insert => cases hop
  | editOne | editFrom | editNamed =>
    obtain rfl := Option.some.inj hop
    rfl

theorem map_timing_perform_edit (hop : op.patch? = some p) :
    (s.perform op).events.map Event.timing = s.events.map Event.timing := by
  rw [events_perform_edit hop]
  cases op.single with
  | false => exact map_timing_editAll op.finds p s.events
  | true => exact map_timing_editFirst op.finds p s.events

theorem picks_iff {i : Nat} {e : Event} :
    op.Picks s i e ↔
      (op.finds e && !(op.single && (s.events.take i).any op.finds)) = true := by
  cases hsingle : op.single <;> simp [Operation.Picks, hsingle, ← Operation.finds_iff]

/-- An edit is made at the places that it picks. -/
theorem patched_perform (hop : op.patch? = some p) : Patched s (s.perform op) p (op.Picks s) := by
  have hat : ∀ i e, s.events[i]? = some e → (s.perform op).events[i]? =
      some (if op.finds e && !(op.single && (s.events.take i).any op.finds) then e.apply p
        else e) := by
    intro i e he
    rw [events_perform_edit hop]
    cases hsingle : op.single <;> simp [getElem?_editFirst, he]
  have htiming := map_timing_perform_edit (s := s) hop
  refine ⟨by simpa using congrArg List.length htiming, htiming, fun i e he hpicked => ?_,
    fun i e he hpicked => ?_⟩
  · rw [hat i e he, if_pos (picks_iff.1 hpicked)]
  · rw [hat i e he, if_neg (mt picks_iff.2 hpicked)]

theorem editAll_congr {matching' : Event → Bool} (h : ∀ e ∈ s.events, matching e = matching' e) :
    s.editAll matching p = s.editAll matching' p := by
  have hmap : (s.events.map fun e => if matching e then e.apply p else e) =
      s.events.map fun e => if matching' e then e.apply p else e :=
    List.map_congr_left fun e he => by rw [h e he]
  rw [editAll, editAll, hmap, List.countP_congr fun e he => by rw [h e he]]

/-- An edit that is made again changes nothing, and finds what it has left as it must be. -/
theorem editAll_editAll (s : Store) (matching : Event → Bool) (p : Patch) :
    (s.editAll matching p).1.editAll matching p =
      ((s.editAll matching p).1,
        s.events.countP fun e => matching e && matching (e.apply p)) := by
  have hstore : ((s.events.map fun e => if matching e then e.apply p else e).map
      fun e => if matching e then e.apply p else e) =
        s.events.map fun e => if matching e then e.apply p else e := by
    rw [List.map_map]
    refine List.map_congr_left fun e _ => ?_
    by_cases he : matching e <;> simp [he]
  have hcount : ∀ e : Event, matching (if matching e then e.apply p else e) =
      (matching e && matching (e.apply p)) := by
    intro e
    by_cases he : matching e <;> simp [he]
  rw [editAll, editAll, hstore, List.countP_map]
  simp only [Function.comp_def, hcount]

structure Settled (s : Store) (edit : Store → Store × Nat) (name : String) (p : Patch) : Prop where
  store : (edit (edit s).1).1 = (edit s).1
  count : p.property ≠ "name" → (edit (edit s).1).2 = (edit s).2
  renamed : ∀ other, p = .name other → (edit (edit s).1).2 = if other = name then (edit s).2 else 0

theorem settled_editAll {name : String} (late : Instant → Prop)
    (h : ∀ e, matching e = true ↔ e.name = name ∧ late e.start) (s : Store) (p : Patch) :
    s.Settled (·.editAll matching p) name p := by
  have hkept : ∀ e, matching e = true → (matching (e.apply p) = true ↔ (e.apply p).name = name) :=
    fun e he => by rw [h, Event.start_apply, and_iff_left ((h e).1 he).2]
  have hcount : (∀ e, matching e = true → (e.apply p).name = name) →
      (s.events.countP fun e => matching e && matching (e.apply p)) = s.events.countP matching := by
    intro hname
    refine List.countP_congr fun e _ => ?_
    rw [Bool.and_eq_true, and_iff_left_iff_imp]
    exact fun he => (hkept e he).2 (hname e he)
  refine ⟨by rw [editAll_editAll], fun hp => ?_, fun other hother => ?_⟩
  · rw [editAll_editAll]
    exact hcount fun e he => by rw [Event.name_apply hp, ((h e).1 he).1]
  · subst hother
    rw [editAll_editAll]
    by_cases hsame : other = name
    · rw [if_pos hsame]
      exact hcount fun e _ => hsame
    · rw [if_neg hsame]
      refine List.countP_eq_zero.2 fun e _ hboth => ?_
      rw [Bool.and_eq_true] at hboth
      exact hsame ((hkept e hboth.1).1 hboth.2)

theorem filter_isSuffix {α : Type} {q : α → Bool} {l : List α}
    (h : l.Pairwise fun a b => q a = true → q b = true) : l.filter q <:+ l := by
  induction l with
  | nil => exact List.suffix_rfl
  | cons a l ih =>
    rw [List.pairwise_cons] at h
    by_cases ha : q a
    · have hall : (a :: l).filter q = a :: l :=
        List.filter_eq_self.2 (List.forall_mem_cons.2 ⟨ha, fun b hb => h.1 b hb ha⟩)
      exact ⟨[], hall⟩
    · rw [List.filter_cons_of_neg ha]
      exact (ih h.2).trans (List.suffix_cons a l)

/-- In a sorted calendar the events of a name from an instant on are the last of that name. -/
theorem Sorted.filter_from_isSuffix (hs : s.Sorted) (name : String) (start : Instant) :
    (s.events.filter fun e => decide (e.name = name ∧ start ≤ e.start)) <:+
      s.events.filter fun e => decide (e.name = name) := by
  have hnamed := List.Pairwise.filter (fun e => decide (e.name = name)) hs
  have hlate := filter_isSuffix (q := fun e : Event => decide (start ≤ e.start))
    (hnamed.imp fun {e f} hle he => decide_eq_true (Int.le_trans (of_decide_eq_true he) hle))
  rw [List.filter_filter] at hlate
  simpa only [Bool.decide_and, Bool.and_comm] using hlate

theorem Sorted.editFrom_eq_editNamed (hs : s.Sorted) {name : String} {start : Instant}
    (h : ∀ first, s.events.find? (fun e => decide (e.name = name)) = some first →
      start ≤ first.start) (p : Patch) :
    s.editFrom name start p = s.editNamed name p := by
  refine editAll_congr fun e he => ?_
  by_cases hname : e.name = name
  · cases hfind : s.events.find? fun e => decide (e.name = name) with
    | none => exact absurd (decide_eq_true hname) (List.find?_eq_none.1 hfind e he)
    | some first =>
      obtain ⟨-, before, after, hsplit, hbefore⟩ := List.find?_eq_some_iff_append.1 hfind
      have hlate : first.start ≤ e.start := by
        rw [Sorted, hsplit, List.pairwise_append, List.pairwise_cons] at hs
        rw [hsplit, List.mem_append, List.mem_cons] at he
        obtain hearlier | rfl | hlater := he
        · simpa [hname] using hbefore e hearlier
        · exact Int.le_refl _
        · exact hs.2.1.1 e hlater
      have hstart : start ≤ e.start := Int.le_trans (h first hfind) hlate
      simp [hname, hstart]
  · simp [hname]

/-- An edit by name patches the events of the name, an edit from an instant on those of them that
do not start before it, and an edit of one event the first that has the name and both times; each
stays where it is, nothing else changes, and what is returned tells how many events there were, or
whether there was one. A patch sets its own property. Made again, an edit of all events finds as
many and changes nothing, but finds none if they have another name now. In a calendar that
operations lead to, the events of a name from an instant on are the last of the name, so that the
two edits agree if the first is among them. -/
theorem edits_exact (s : Store) (name : String) (start stop : Instant) (p : Patch) :
    let found := fun e : Event => e.name = name ∧ e.start = start ∧ e.stop = stop
    (Patched s (s.editNamed name p).1 p (fun _ e => e.name = name) ∧
        (s.editNamed name p).2 = s.events.countP fun e => decide (e.name = name)) ∧
      (Patched s (s.editFrom name start p).1 p (fun _ e => e.name = name ∧ start ≤ e.start) ∧
        (s.editFrom name start p).2 =
          s.events.countP fun e => decide (e.name = name ∧ start ≤ e.start)) ∧
      (Patched s (s.editOne name start stop p).1 p
          (fun i e => found e ∧ ∀ f ∈ s.events.take i, ¬ found f) ∧
        ((s.editOne name start stop p).2 = true ↔ ∃ e ∈ s.events, found e)) ∧
      (∀ e : Event, (e.apply p).timing = e.timing ∧
        (e.apply p).properties =
          e.properties.map fun q => if q.property = p.property then p else q) ∧
      s.Settled (·.editNamed name p) name p ∧ s.Settled (·.editFrom name start p) name p ∧
      ∀ ops, let r := empty.run ops
        ((r.events.filter fun e => decide (e.name = name ∧ start ≤ e.start)) <:+
            r.events.filter fun e => decide (e.name = name)) ∧
          ((∀ first, r.events.find? (fun e => decide (e.name = name)) = some first →
              start ≤ first.start) →
            r.editFrom name start p = r.editNamed name p) := by
  intro found
  have hnamed : (s.editNamed name p).2 = s.events.countP fun e => decide (e.name = name) :=
    List.countP_congr fun e _ => by simp
  have hfrom : (s.editFrom name start p).2 =
      s.events.countP fun e => decide (e.name = name ∧ start ≤ e.start) :=
    List.countP_congr fun e _ => by simp
  have hone : (s.editOne name start stop p).2 = true ↔ ∃ e ∈ s.events, found e := by
    simp [editOne, found, and_assoc]
  have hplural : ∀ op : Operation, op.patch? = some p → op.single = false →
      Patched s (s.perform op) p fun _ e => op.Finds e := fun op hop hsingle =>
    (patched_perform hop).congr fun i e => by simp [Operation.Picks, hsingle]
  have hsingle : Patched s (s.perform (.editOne name start stop p)) p _ := patched_perform rfl
  refine ⟨⟨hplural (.editNamed name p) rfl rfl, hnamed⟩,
    ⟨hplural (.editFrom name start p) rfl rfl, hfrom⟩,
    ⟨hsingle.congr fun i e => ?_, hone⟩,
    fun e => ⟨e.timing_apply p, e.properties_apply p⟩,
    settled_editAll (fun _ => True) (by simp) s p,
    settled_editAll (fun t => start ≤ t) (by simp) s p, fun ops => ?_⟩
  · simp [Operation.Picks, Operation.single, Operation.Finds, found]
  · have hsorted : (empty.run ops).Sorted := sorted_empty.run ops
    exact ⟨hsorted.filter_from_isSuffix name start, fun h => hsorted.editFrom_eq_editNamed h p⟩

def standups : List Operation :=
  [.insert ⟨"Standup", (Instant.ofNumber? 63850928400).get (Eq.refl true),
      (Instant.ofNumber? 63850929300).get (Eq.refl true), false, "", "", true, by decide⟩ .warn,
    .insert ⟨"Standup", (Instant.ofNumber? 63850842000).get (Eq.refl true),
      (Instant.ofNumber? 63850842900).get (Eq.refl true), false, "", "", true, by decide⟩ .warn,
    .insert ⟨"Call", (Instant.ofNumber? 63850928400).get (Eq.refl true),
      (Instant.ofNumber? 63850930200).get (Eq.refl true), false, "", "", true, by decide⟩ .warn,
    .insert ⟨"Standup", (Instant.ofNumber? 63850842000).get (Eq.refl true),
      (Instant.ofNumber? 63850842900).get (Eq.refl true), false, "", "", true, by decide⟩ .warn]

theorem edits_exact_standups :
    let r := empty.run standups
    let first : Instant := ⟨63850842000, by decide, by decide⟩
    let second : Instant := ⟨63850928400, by decide, by decide⟩
    let rename := Patch.name "Daily"
    let later := r.editFrom "Standup" second rename
    r.events.map Event.name = ["Standup", "Standup", "Standup", "Call"] ∧
      (r.editOne "Standup" first ⟨63850842900, by decide, by decide⟩ rename).1.events.map
        Event.name = ["Daily", "Standup", "Standup", "Call"] ∧
      later.1.events.map Event.name = ["Standup", "Standup", "Daily", "Call"] ∧ later.2 = 1 ∧
      (later.1.editFrom "Standup" second rename).2 = 0 ∧
      r.editFrom "Standup" first rename = r.editNamed "Standup" rename := by
  intro r first second rename later
  obtain ⟨-, -, -, -, -, hagain, -⟩ := edits_exact r "Standup" second second rename
  obtain ⟨-, -, -, -, -, -, hreached⟩ := edits_exact r "Standup" first first rename
  refine ⟨by decide +kernel, by decide +kernel, by decide +kernel, by decide +kernel,
    hagain.renamed "Daily" rfl, (hreached standups).2 fun e he => ?_⟩
  have hfirst : (r.events.find? fun e => decide (e.name = "Standup")).map Event.start =
      some first := by decide +kernel
  rw [he] at hfirst
  exact Int.le_of_eq (congrArg Instant.number (Option.some.inj hfirst)).symm

end Daybook.Store
