import Daybook.Proofs.Csv.RoundTrip
import Daybook.Proofs.Session.Characters
import Daybook.Session.Console

/-!
Exports of sessions. Main statements: what lines lead to is exported as a table that is read back,
unless a name or another text has taken a line feed over from a line; and neither scripts nor
prompts have such lines.
-/
namespace Daybook

theorem Event.hasLineFeed_eq_false_iff {e : Event} :
    e.hasLineFeed = false ↔ e.Spelled (· ≠ '\n') := by
  simp [hasLineFeed, spelled_iff, List.forall_mem_ne']

def Event.Portable (e : Event) : Prop := e.Presentable ∧ e.Spelled (· ≠ '\n')

namespace Csv
variable {events : List Event}

theorem read_table_of_portable (h : ∀ e ∈ events, e.Portable) :
    read (Bytes.ofString (Dialect.plain.table events)) = .ok events :=
  read_table_of_forall fun e he =>
    ⟨(h e he).1.toWellFormed, Event.hasLineFeed_eq_false_iff.2 (h e he).2⟩

end Csv

namespace Command

theorem portable_of_parse {line : String} {c : Command} (hc : parse line = .ok c)
    (hline : '\n' ∉ line.toList) : c.Keeps Event.Portable := by
  have hspelled : c.Spelled (· ≠ '\n') :=
    spelled_of_parse hc fun a ha hfeed => hline (hfeed ▸ ha)
  intro policy op hop
  have hphrase := (phrased_of_parse hc).keeps policy op hop
  have htexts := hspelled.keeps policy op hop
  cases op with
  | insert e => exact ⟨hphrase, htexts⟩
  | editOne | editFrom | editNamed =>
    exact fun e he => ⟨hphrase e he.1, htexts e he.2⟩

end Command

namespace Session

/-- What lines lead to is read back from its table if no text holds a line feed, and the first event
with one is at fault otherwise. Lines without line feeds lead to no such event. -/
theorem read_export (policy : Policy) (sink : Sink) (files : Files) (lines : List String) :
    let events := ((start policy sink files).executeAll lines).store.events
    let table := Bytes.ofString (Csv.Dialect.plain.table events)
    (Csv.read table = .ok events ↔ ∀ e ∈ events, e.hasLineFeed = false) ∧
      (∀ k, events.findIdx? Event.hasLineFeed = some k →
        Csv.read table = .error (.badRow (k + 2) (.fields .unterminated))) ∧
      ((∀ line ∈ lines, '\n' ∉ line.toList) → Csv.read table = .ok events) := by
  intro events table
  have hpresentable : ∀ e ∈ events, e.Presentable :=
    forall_mem_executeAll (fun _ _ _ hc => (Command.phrased_of_parse hc).keeps)
      (by simp [start, Store.empty])
  have hread := Csv.read_table_eq fun e he => (hpresentable e he).toWellFormed
  refine ⟨?_, ?_, fun hlines => ?_⟩
  · rw [hread, ← List.findIdx?_eq_none_iff]
    cases events.findIdx? Event.hasLineFeed <;> simp
  · intro k hk
    rw [hread, hk]
  · refine Csv.read_table_of_portable ?_
    exact forall_mem_executeAll
      (fun line hline c hc => Command.portable_of_parse hc (hlines line hline))
      (by simp [start, Store.empty])

def twoLinedName : Session :=
  (start .warn .unlimited ⟨[], []⟩).executeAll ["create event a\nb on 2024-05-06"]

theorem read_export_twoLinedName :
    twoLinedName.store.events.map Event.name = ["a\nb"] ∧
      Csv.read (Bytes.ofString (Csv.Dialect.plain.table twoLinedName.store.events)) =
        .error (.badRow 2 (.fields .unterminated)) := by
  decide +kernel

theorem read_export_lunch :
    let lines := ["create event Lunch break on 2024-05-06",
      "edit events location Lunch break with Room \"1\", left"]
    let events := ((start .warn .unlimited ⟨[], []⟩).executeAll lines).store.events
    (∀ line ∈ lines, '\n' ∉ line.toList) ∧
      Csv.read (Bytes.ofString (Csv.Dialect.plain.table events)) = .ok events :=
  ⟨by decide, (read_export .warn .unlimited ⟨[], []⟩ _).2.2 (by decide)⟩

section Actions
variable {α β : Type} {P : Event → Prop} {line : String}

def left : EStateM.Result Fault Session α → Session
  | .ok _ s => s
  | .error _ s => s

def Kept (P : Event → Prop) (p : Action α) : Prop :=
  ∀ s : Session, (∀ e ∈ s.store.events, P e) → ∀ e ∈ (left (p s)).store.events, P e

theorem Kept.pure (a : α) : Kept P (Pure.pure a : Action α) := fun _ h => h

theorem Kept.bind {p : Action α} {f : α → Action β} (hp : Kept P p) (hf : ∀ a, Kept P (f a)) :
    Kept P (p >>= f) := by
  intro s h
  have hfirst := hp s h
  cases hresult : p s with
  | error fault t =>
    rw [hresult] at hfirst
    rw [bind_of_error hresult]
    exact hfirst
  | ok a t =>
    rw [hresult] at hfirst
    rw [bind_of_ok hresult]
    exact hf a t hfirst

theorem Kept.write (text : String) : Kept P (console.write text) := by
  intro s h
  change ∀ e ∈ (left (writeAction text s)).store.events, P e
  rw [writeAction]
  cases hwrite : s.write text with
  | mk t taken =>
    have hstore : t.store = s.store := by rw [eq_of_write hwrite]
    cases taken <;> simpa only [left, hstore] using h

theorem Kept.report (hline : ∀ c, Command.parse line = .ok c → c.Keeps P) :
    Kept P (console.report line) := by
  have hrun : Kept P (console.run line) := fun _ h => forall_mem_execute hline h
  refine .bind hrun fun result => ?_
  cases result with
  | error e => exact .write _
  | ok outcome => exact .pure ()

theorem Kept.scriptLine (echo : Bool) {line : Option String} (hline : ∀ text ∈ line, ∀ c,
    Command.parse (Console.command text) = .ok c → c.Keeps P) :
    Kept P (console.scriptLine echo line) := by
  cases line with
  | none => exact fun _ h => h
  | some text =>
    have hreport : Kept P (console.report (Console.command text)) := .report (hline text rfl)
    rw [Console.scriptLine]
    split
    · exact .pure true
    · cases echo with
      | true =>
        rw [if_pos rfl]
        refine .bind (.write _) fun _ => ?_
        split
        · exact .bind (.write _) fun _ => .pure false
        · exact .bind hreport fun _ => .pure true
      | false =>
        rw [if_neg Bool.false_ne_true]
        split
        · exact .bind (.write _) fun _ => .pure false
        · exact .bind hreport fun _ => .pure true

theorem Kept.promptLine {line : Option String} (hline : ∀ text ∈ line, ∀ c,
    Command.parse (Console.command text) = .ok c → c.Keeps P) :
    Kept P (console.promptLine line) := by
  cases line with
  | none => exact fun _ h => h
  | some text =>
    rw [Console.promptLine]
    split
    · exact .bind (.write _) fun _ => .pure false
    · split
      · exact .pure true
      · exact .bind (.report (hline text rfl)) fun _ => .pure true

variable {lines : List (Option String)}

theorem Kept.script (echo : Bool) (hlines : ∀ text, some text ∈ lines → ∀ c,
    Command.parse (Console.command text) = .ok c → c.Keeps P) :
    Kept P (console.script echo lines) := by
  induction lines with
  | nil => exact .pure ()
  | cons line rest ih =>
    have hrest := ih fun text htext => hlines text (List.mem_cons_of_mem line htext)
    refine .bind (.scriptLine echo fun text htext => ?_) fun goesOn => ?_
    · exact hlines text (Option.mem_def.1 htext ▸ List.mem_cons_self)
    · cases goesOn with
      | true => exact hrest
      | false => exact .pure ()

theorem Kept.prompted (prompt : String) (hlines : ∀ text, some text ∈ lines → ∀ c,
    Command.parse (Console.command text) = .ok c → c.Keeps P) :
    Kept P (console.prompted prompt lines) := by
  induction lines with
  | nil => exact .write prompt
  | cons line rest ih =>
    have hrest := ih fun text htext => hlines text (List.mem_cons_of_mem line htext)
    refine .bind (.write prompt) fun _ => .bind (.promptLine fun text htext => ?_) fun goesOn => ?_
    · exact hlines text (Option.mem_def.1 htext ▸ List.mem_cons_self)
    · cases goesOn with
      | true => exact hrest
      | false => exact .pure ()

theorem after_fst (s : Session) (p : Action Unit) : (s.after p).1 = left (p s) := by
  rw [after]
  cases p s <;> rfl

theorem portable_of_mem_lines {input : Bytes} {text : String} (htext : some text ∈ input.lines)
    {c : Command} (hc : Command.parse (Console.command text) = .ok c) :
    c.Keeps Event.Portable := by
  refine Command.portable_of_parse hc fun hfeed => ?_
  rw [Console.command, String.toList_ofList] at hfeed
  exact Bytes.lineFeed_not_mem_of_mem_lines htext ((trim_sublist _).subset hfeed)

/-- What a script or a prompt leads to is always read back, however the run ends. -/
theorem read_export_of_front_ends (policy : Policy) (sink : Sink) (files : Files) (input : Bytes) :
    (∀ echo,
      let events := ((start policy sink files).runScript echo input).1.store.events
      Csv.read (Bytes.ofString (Csv.Dialect.plain.table events)) = .ok events) ∧
    ∀ prompt,
      let events := ((start policy sink files).runInteractive prompt input).1.store.events
      Csv.read (Bytes.ofString (Csv.Dialect.plain.table events)) = .ok events := by
  have hread : ∀ p : Action Unit, Kept Event.Portable p →
      let events := ((start policy sink files).after p).1.store.events
      Csv.read (Bytes.ofString (Csv.Dialect.plain.table events)) = .ok events := by
    intro p hp
    have hleft := hp (start policy sink files) (by simp [start, Store.empty])
    rw [← after_fst] at hleft
    exact Csv.read_table_of_portable hleft
  have hlines : ∀ text, some text ∈ input.lines → ∀ c,
      Command.parse (Console.command text) = .ok c → c.Keeps Event.Portable :=
    fun _ htext _ hc => portable_of_mem_lines htext hc
  refine ⟨fun echo => hread _ (.script echo hlines), fun prompt => hread _ ?_⟩
  exact .bind (.write _) fun _ => .prompted prompt hlines

end Actions

end Session
end Daybook
