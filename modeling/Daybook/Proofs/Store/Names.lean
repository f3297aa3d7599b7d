import Mathlib.Data.List.Induction
import Daybook.Proofs.Event.Settings
import Daybook.Proofs.Event.WellFormed
import Daybook.Proofs.Store.Kept

/-!
Names of events. Main statement: along a run every event keeps a name exactly if no edit writes the
empty one over the name of an event that is there.
-/
namespace Daybook

/-- Where each step keeps a property exactly under a condition, the property holds all along a run
exactly if the condition holds at each step. -/
theorem forall_prefix_iff {α σ : Type} (run : List α → σ) {P : σ → Prop} {Q : σ → α → Prop}
    {l : List α} (hnil : P (run []))
    (hstep : ∀ before a, before ++ [a] <+: l → P (run before) →
      (P (run (before ++ [a])) ↔ Q (run before) a)) :
    (∀ before, before <+: l → P (run before)) ↔
      ∀ before a, before ++ [a] <+: l → Q (run before) a := by
  have hshorter : ∀ before a, before ++ [a] <+: l → before <+: l := fun before a hl =>
    (List.prefix_append before [a]).trans hl
  constructor
  · intro h before a hl
    exact (hstep before a hl (h before (hshorter before a hl))).1 (h _ hl)
  · -- The last step is the one that the condition is about, so the run is taken apart at its end.
    intro h before hl
    induction before using List.reverseRecOn with
    | nil => exact hnil
    | append_singleton before a ih =>
      exact (hstep before a hl (ih (hshorter before a hl))).2 (h before a hl)

theorem Patch.read?_eq_emptyName_iff {property value : String} :
    read? property value = some (.name "") ↔
      sameIgnoringCase property "name" = true ∧ value = "" := by
  have hmem : .name "" ∈ settings value ↔ "" = value := by simp [settings]
  rw [read?_eq_some_iff, hmem, @eq_comm _ "", and_comm]
  rfl

theorem Event.name_apply_ne_empty_iff {e : Event} {p : Patch} (h : e.name ≠ "") :
    (e.apply p).name ≠ "" ↔ p ≠ .name "" := by
  cases p <;> simp [apply, h]

namespace Store
variable {s : Store} {op : Operation} {ops : List Operation} {p : Patch} {l : List Event}

def Named (s : Store) : Prop := ∀ e ∈ s.events, e.name ≠ ""

namespace Operation

def patch? : Operation → Option Patch
  | insert _ _ => none
  | editOne _ _ _ p | editFrom _ _ p | editNamed _ p => some p

def Finds : Operation → Event → Prop
  | insert _ _, _ => False
  | editOne name start stop _, e => e.name = name ∧ e.start = start ∧ e.stop = stop
  | editFrom name start _, e => e.name = name ∧ start ≤ e.start
  | editNamed name _, e => e.name = name

def Blanks (s : Store) (op : Operation) : Prop :=
  op.patch? = some (.name "") ∧ ∃ e ∈ s.events, op.Finds e

def BringsName : Operation → Prop
  | insert e _ => e.name ≠ ""
  | _ => True

end Operation

theorem named_editFirst_iff {matching : Event → Bool} (h : ∀ e ∈ l, e.name ≠ "") :
    (∀ e ∈ editFirst matching p l, e.name ≠ "") ↔
      ¬ (p = .name "" ∧ ∃ e ∈ l, matching e = true) := by
  induction l with
  | nil => simp [editFirst]
  | cons e l ih =>
    obtain ⟨he, hl⟩ := List.forall_mem_cons.1 h
    rw [editFirst]
    cases hmatch : matching e with
    | true => simpa [hmatch, Event.name_apply_ne_empty_iff he] using fun _ => hl
    | false => simp [hmatch, he, ih hl]

theorem named_editAll_iff {matching : Event → Bool} (h : ∀ e ∈ l, e.name ≠ "") :
    (∀ e ∈ l.map fun e => if matching e then e.apply p else e, e.name ≠ "") ↔
      ¬ (p = .name "" ∧ ∃ e ∈ l, matching e = true) := by
  induction l with
  | nil => simp
  | cons e l ih =>
    obtain ⟨he, hl⟩ := List.forall_mem_cons.1 h
    rw [List.map_cons, List.forall_mem_cons, ih hl]
    cases hmatch : matching e with
    | true =>
      simp only [hmatch, if_true, Event.name_apply_ne_empty_iff he, List.mem_cons,
        exists_eq_or_imp, true_or, and_true]
      tauto
    | false => simp [hmatch, he]

/-- Step: events that have names keep them exactly if the operation takes none. -/
theorem named_perform_iff (hs : s.Named) (hop : op.BringsName) :
    (s.perform op).Named ↔ ¬ op.Blanks s := by
  cases op with
  | insert e policy =>
    have hnamed : (s.perform (.insert e policy)).Named :=
      forall_mem_perform (P := fun e => e.name ≠ "") hop hs
    simp [hnamed, Operation.Blanks, Operation.patch?]
  | editOne name start stop p =>
    refine (named_editFirst_iff hs).trans ?_
    simp [Operation.Blanks, Operation.patch?, Operation.Finds, and_assoc]
  | editFrom name start p =>
    refine (named_editAll_iff hs).trans ?_
    simp [Operation.Blanks, Operation.patch?, Operation.Finds]
  | editNamed name p =>
    refine (named_editAll_iff hs).trans ?_
    simp [Operation.Blanks, Operation.patch?, Operation.Finds]

theorem named_empty : empty.Named := by
  intro e he
  cases he

/-- Run: from the empty calendar on, every event has a name all along exactly if no operation takes
one when its turn comes. -/
theorem named_run_iff (hops : ∀ op ∈ ops, op.BringsName) :
    (∀ before, before <+: ops → (empty.run before).Named) ↔
      ∀ before op, before ++ [op] <+: ops → ¬ op.Blanks (empty.run before) := by
  refine forall_prefix_iff (Q := fun s op => ¬ op.Blanks s) empty.run named_empty ?_
  intro before op hl hnamed
  have hop : op ∈ ops := hl.subset (List.mem_append_right before List.mem_cons_self)
  rw [run_append]
  exact named_perform_iff hnamed (hops op hop)

end Store
end Daybook
