import Daybook.Proofs.Session.Output
import Daybook.Proofs.Session.Record

/-!
Outputs with a limit. Main statement: a limit only cuts a run off. The output is the first part of
what it would be, and the calendar is the one before the text that did not fit.
-/
namespace Daybook
open EStateM (Result)
variable {α β : Type} {limit : Option Nat} {s t : Session} {r r' : Record}

/-- A session that has stayed below its limit does what the recorded one does. -/
structure Abreast (limit : Option Nat) (s : Session) (r : Record) : Prop where
  unlimited : r.session.sink.room = none
  recorded : r.session.sink.taken = r.bytes
  placed : r.Placed
  same : s.silent = r.session.silent
  taken : s.sink.taken = r.bytes
  room : s.sink.room = limit.map (· - r.journal.length)
  fits : ∀ k ∈ limit, r.journal.length ≤ k

/-- A session that was stopped at its limit is what the recorded one was before the byte that did
not fit. -/
def Cut (limit : Option Nat) (s : Session) (r : Record) : Prop :=
  ∃ k ∈ limit, s.sink.room = some 0 ∧ s.sink.taken = r.bytes.take k ∧
    ∃ entry ∈ r.journal[k]?, s.silent = entry.2.silent

theorem Cut.mono (h : Cut limit s r) (hgrows : r.journal <+: r'.journal) : Cut limit s r' := by
  obtain ⟨k, hlimit, hroom, htaken, entry, hentry, hsame⟩ := h
  obtain ⟨more, hmore⟩ := hgrows
  obtain ⟨hk, -⟩ := List.getElem?_eq_some_iff.mp hentry
  refine ⟨k, hlimit, hroom, ?_, entry, ?_, hsame⟩
  · rw [htaken, Record.bytes, Record.bytes, ← hmore, List.map_append,
      List.take_append_of_le_length (by simpa using hk.le)]
  · rw [← hmore, List.getElem?_append_left hk]
    exact hentry

/-- Once the output is full, no more text is taken. -/
theorem Cut.write {text : String} (h : Cut limit s r) (hsome : 0 < (Bytes.ofString text).length) :
    (s.write text).2 = false ∧ Cut limit (s.write text).1 r := by
  obtain ⟨k, hlimit, hroom, htaken, entry, hentry, hsame⟩ := h
  obtain ⟨hpart, hstays, hkept, hsilent⟩ := Session.write_of_lt hroom hsome
  rw [List.take_zero, List.append_nil] at hkept
  exact ⟨hpart, k, hlimit, hstays, hkept.trans htaken, entry, hentry, hsilent.trans hsame⟩

/-- A text is taken whole, or up to the limit. -/
theorem Abreast.write (h : Abreast limit s r) (text : String) :
    let written := r.goOn (r.session.write text).1 ((Bytes.ofString text).map (·, r.session))
    ((s.write text).2 = true ∧ Abreast limit (s.write text).1 written) ∨
      ((s.write text).2 = false ∧ Cut limit (s.write text).1 written) := by
  intro written
  obtain ⟨-, hstays, hadded, hkept⟩ := Session.write_of_unlimited h.unlimited text
  have hbytes : written.bytes = r.bytes ++ Bytes.ofString text := r.bytes_goOn _ _
  have hplaced : written.Placed := h.placed.goOn h.recorded _ _
  have hlength : written.journal.length = r.journal.length + (Bytes.ofString text).length := by
    simp [written, Record.goOn]
  have hrecorded : written.session.sink.taken = written.bytes := by
    rw [hbytes, ← h.recorded]
    exact hadded
  cases limit with
  | none =>
    obtain ⟨hwrite, hroom, htaken, hsilent⟩ := Session.write_of_unlimited h.room text
    refine .inl ⟨by rw [hwrite], hstays, hrecorded, hplaced, ?_, ?_, hroom, by simp⟩
    · rw [hsilent, h.same]
      exact hkept.symm
    · rw [htaken, h.taken, hbytes]
  | some k =>
    have hbelow := h.fits k rfl
    by_cases hfits : (Bytes.ofString text).length ≤ k - r.journal.length
    · obtain ⟨hwhole, hroom, htaken, hsilent⟩ := Session.write_of_le h.room hfits
      refine .inl ⟨hwhole, hstays, hrecorded, hplaced, ?_, ?_, ?_, ?_⟩
      · rw [hsilent, h.same]
        exact hkept.symm
      · rw [htaken, h.taken, hbytes]
      · rw [hroom, hlength, Nat.sub_sub]
        rfl
      · rintro _ ⟨⟩
        omega
    · obtain ⟨hpart, hroom, htaken, hsilent⟩ := Session.write_of_lt h.room (Nat.not_le.mp hfits)
      refine .inr ⟨hpart, k, rfl, hroom, ?_, ?_⟩
      · have hall : r.bytes.take k = r.bytes :=
          List.take_of_length_le (by rwa [Record.length_bytes])
        rw [htaken, h.taken, hbytes, List.take_append, hall, Record.length_bytes]
      · obtain ⟨byte, hbyte⟩ : ∃ byte, (Bytes.ofString text)[k - r.journal.length]? = some byte :=
          ⟨_, List.getElem?_eq_getElem (Nat.not_le.mp hfits)⟩
        refine ⟨(byte, r.session), ?_, hsilent.trans h.same⟩
        simp [written, Record.goOn, List.getElem?_append_right hbelow, hbyte]

def Tallies (limit : Option Nat) (x : Session × Except Error α) (y : Record × Except Error α) :
    Prop :=
  (x.2 = y.2 ∧ Abreast limit x.1 y.1) ∨
    (x.2 = .error (.output .sinkFull) ∧ Cut limit x.1 y.1)

theorem Abreast.quietly {u : Session} (h : Abreast limit s r) (hs : t.sink = s.sink)
    (hr : u.sink = r.session.sink) (hsame : t.silent = u.silent) :
    Abreast limit t (r.goOn u []) := by
  obtain ⟨hunlimited, hrecorded, hplaced, -, htaken, hroom, hfits⟩ := h
  rw [← hs] at htaken hroom
  rw [← hr] at hunlimited hrecorded
  have hsilent : r.goOn u [] = ⟨u, r.journal⟩ := by rw [Record.goOn, List.append_nil]
  rw [hsilent]
  exact ⟨hunlimited, hrecorded, hplaced, hsame, htaken, hroom, hfits⟩

/-- Step: one step of a reply. -/
theorem Abreast.take (h : Abreast limit s r) (step : Step) :
    Tallies limit (s.take step) (r.take step) := by
  have hfiles : s.files = r.session.files := (congrArg Session.files h.same :)
  cases step with
  | keep store =>
    refine .inl ⟨rfl, h.quietly rfl rfl ?_⟩
    exact (congrArg (fun s : Session => { s with store := store }) h.same :)
  | add e =>
    refine .inl ⟨rfl, h.quietly rfl rfl ?_⟩
    exact (congrArg (fun s : Session => { s with store := s.store.add e }) h.same :)
  | save path content =>
    rw [Record.take, Session.take, Session.take, hfiles]
    cases r.session.files.replace path (Bytes.ofString content) with
    | error fault => exact .inl ⟨rfl, h.quietly rfl rfl h.same⟩
    | ok files =>
      refine .inl ⟨rfl, h.quietly rfl rfl ?_⟩
      exact (congrArg (fun s : Session => { s with files := files }) h.same :)
  | print text =>
    obtain ⟨hwhole, -⟩ := Session.write_of_unlimited h.unlimited text
    have hwrite := h.write text
    rw [Record.take, Session.take, Session.take, hwhole]
    generalize s.write text = written at hwrite ⊢
    obtain ⟨t, taken⟩ := written
    obtain ⟨rfl, hnext⟩ | ⟨rfl, hcut⟩ := hwrite
    · exact .inl ⟨rfl, hnext⟩
    · exact .inr ⟨rfl, hcut⟩

/-- Run: the steps of a reply. -/
theorem Abreast.perform (h : Abreast limit s r) (steps : List Step) :
    Tallies limit (s.perform steps) (r.perform steps) := by
  induction steps generalizing s r with
  | nil => exact .inl ⟨rfl, h.quietly rfl rfl h.same⟩
  | cons step steps ih =>
    have hstep := h.take step
    rw [Session.perform_cons, Record.perform_cons]
    generalize s.take step = x, r.take step = y at hstep ⊢
    obtain ⟨t, ended⟩ := x
    obtain ⟨u, result⟩ := y
    obtain ⟨rfl, hnext⟩ | ⟨rfl, hcut⟩ := hstep
    · cases ended with
      | ok _ => exact ih hnext
      | error e => exact .inl ⟨rfl, hnext⟩
    · cases result with
      | ok _ => exact .inr ⟨rfl, hcut.mono (u.perform_grows steps)⟩
      | error e => exact .inr ⟨rfl, hcut⟩

theorem Abreast.execute (h : Abreast limit s r) (line : String) :
    Tallies limit (s.execute line) (r.execute line) := by
  rw [Record.execute, Session.execute, Session.execute, Session.writtenOn]
  cases Command.parse line with
  | error e => exact .inl ⟨rfl, h.quietly rfl rfl h.same⟩
  | ok c =>
    have hreply : s.replyTo c = r.session.replyTo c :=
      (congrArg (Session.replyTo · c) h.same :)
    have hsteps := h.perform (r.session.replyTo c).steps
    simp only [Session.run, Session.deliver, hreply]
    rw [Record.perform] at hsteps
    generalize s.perform (r.session.replyTo c).steps = x,
      r.session.perform (r.session.replyTo c).steps = y at hsteps ⊢
    obtain ⟨t, ended⟩ := x
    obtain ⟨u, result⟩ := y
    obtain ⟨rfl, hnext⟩ | ⟨rfl, hcut⟩ := hsteps
    · cases ended with
      | ok _ => exact .inl ⟨rfl, hnext⟩
      | error e => exact .inl ⟨rfl, hnext⟩
    · cases result with
      | ok _ => exact .inr ⟨rfl, hcut⟩
      | error e => exact .inr ⟨rfl, hcut⟩

inductive Follows (limit : Option Nat) : Result Fault Session α → Result Fault Record α → Prop
  | ok {s : Session} {r : Record} (a : α) : Abreast limit s r → Follows limit (.ok a s) (.ok a r)
  | error {s : Session} {r : Record} (fault : Fault) : Abreast limit s r →
    Follows limit (.error fault s) (.error fault r)
  | cut {s : Session} (y : Result Fault Record α) : Cut limit s (Record.left y) →
    Follows limit (.error .sinkFull s) y

structure Shadows (limit : Option Nat) (p : Session.Action α) (q : Record.Action α) : Prop where
  grows : Record.Grows q
  follows : ∀ {s r}, Abreast limit s r → Follows limit (p s) (q r)

theorem Shadows.pure (a : α) : Shadows limit (Pure.pure a) (Pure.pure a) :=
  ⟨.pure a, fun h => .ok a h⟩

theorem Shadows.throw (fault : Fault) :
    Shadows limit (throw fault : Session.Action α) (throw fault) :=
  ⟨.throw fault, fun h => .error fault h⟩

theorem Shadows.bind {p : Session.Action α} {q : Record.Action α} {f : α → Session.Action β}
    {g : α → Record.Action β} (hp : Shadows limit p q) (hf : ∀ a, Shadows limit (f a) (g a)) :
    Shadows limit (p >>= f) (q >>= g) := by
  refine ⟨.bind hp.grows fun a => (hf a).grows, fun {s r} h => ?_⟩
  have hfirst := hp.follows h
  generalize hs : p s = x, hr : q r = y at hfirst
  cases hfirst with
  | ok a hnext =>
    rw [bind_of_ok hs, bind_of_ok hr]
    exact (hf a).follows hnext
  | error fault hnext =>
    rw [bind_of_error hs, bind_of_error hr]
    exact .error fault hnext
  | cut y hcut =>
    rw [bind_of_error hs]
    refine .cut _ ?_
    cases y with
    | ok a r =>
      rw [bind_of_ok hr]
      exact hcut.mono ((hf a).grows r)
    | error fault r =>
      rw [bind_of_error hr]
      exact hcut

theorem Shadows.write (text : String) :
    Shadows limit (Session.writeAction text) (Record.writeAction text) := by
  refine ⟨.write text, fun {s r} h => ?_⟩
  have hwrite := h.write text
  obtain ⟨hwhole, -⟩ := Session.write_of_unlimited h.unlimited text
  rw [Record.writeAction, Record.recording, Session.writeAction, Session.writeAction, hwhole]
  generalize s.write text = written at hwrite ⊢
  obtain ⟨t, taken⟩ := written
  obtain ⟨rfl, hnext⟩ | ⟨rfl, hcut⟩ := hwrite
  · exact .ok () hnext
  · exact .cut _ hcut

theorem Shadows.say (line : String) :
    Shadows limit (Session.console.say line) (Record.console.say line) := .write _

theorem Shadows.report (line : String) :
    Shadows limit (Session.console.report line) (Record.console.report line) := by
  refine ⟨.report line, fun {s r} h => ?_⟩
  have hrun : Session.console.run line s = .ok (s.execute line).2 (s.execute line).1 := rfl
  have hrecorded : Record.console.run line r = .ok (r.execute line).2 (r.execute line).1 := rfl
  have hline := h.execute line
  rw [Console.report, bind_of_ok hrun]
  obtain ⟨hresult, hnext⟩ | ⟨hresult, hcut⟩ := hline
  · rw [Console.report, bind_of_ok hrecorded, hresult]
    cases (r.execute line).2 with
    | error e => exact (Shadows.say _).follows hnext
    | ok outcome => exact .ok () hnext
  · -- The report does not fit either, so that the loop ends here.
    obtain ⟨hfull, hstill⟩ := hcut.write
      (show 0 < (Bytes.ofString ("Error: " ++ (Error.output .sinkFull).message ++ "\n")).length by
        decide)
    rw [hresult]
    change Follows limit (Session.writeAction _ _) _
    rw [Session.writeAction]
    generalize (s.execute line).1.write _ = written at hfull hstill ⊢
    obtain ⟨t, taken⟩ := written
    obtain rfl : taken = false := hfull
    refine .cut _ (hstill.mono ?_)
    rw [Console.report, bind_of_ok hrecorded]
    cases (r.execute line).2 with
    | error e => exact Record.Grows.write _ _
    | ok outcome => exact List.prefix_rfl

theorem Shadows.scriptLine (echo : Bool) (line : Option String) :
    Shadows limit (Session.console.scriptLine echo line) (Record.console.scriptLine echo line) := by
  cases line with
  | none => exact .throw _
  | some line =>
    rw [Console.scriptLine, Console.scriptLine]
    split
    · exact .pure true
    · cases echo with
      | true =>
        rw [if_pos rfl, if_pos rfl]
        refine .bind (.say _) fun _ => ?_
        split
        · exact .bind (.say _) fun _ => .pure false
        · exact .bind (.report _) fun _ => .pure true
      | false =>
        rw [if_neg Bool.false_ne_true, if_neg Bool.false_ne_true]
        split
        · exact .bind (.say _) fun _ => .pure false
        · exact .bind (.report _) fun _ => .pure true

theorem Shadows.script (echo : Bool) (lines : List (Option String)) :
    Shadows limit (Session.console.script echo lines) (Record.console.script echo lines) := by
  induction lines with
  | nil => exact .pure ()
  | cons line rest ih =>
    refine .bind (.scriptLine echo line) fun goesOn => ?_
    cases goesOn with
    | true => exact ih
    | false => exact .pure ()

theorem Shadows.promptLine (line : Option String) :
    Shadows limit (Session.console.promptLine line) (Record.console.promptLine line) := by
  cases line with
  | none => exact .throw _
  | some line =>
    rw [Console.promptLine, Console.promptLine]
    split
    · exact .bind (.say _) fun _ => .pure false
    · split
      · exact .pure true
      · exact .bind (.report _) fun _ => .pure true

theorem Shadows.prompted (prompt : String) (lines : List (Option String)) :
    Shadows limit (Session.console.prompted prompt lines)
      (Record.console.prompted prompt lines) := by
  induction lines with
  | nil => exact .write prompt
  | cons line rest ih =>
    refine .bind (.write prompt) fun _ => .bind (.promptLine line) fun goesOn => ?_
    cases goesOn with
    | true => exact ih
    | false => exact .pure ()

theorem Shadows.interactive (prompt : String) (lines : List (Option String)) :
    Shadows limit (Session.console.interactive prompt lines)
      (Record.console.interactive prompt lines) :=
  .bind (.say _) fun _ => .prompted prompt lines

theorem Abreast.start (limit : Option Nat) (policy : Policy) (files : Files) :
    Abreast limit (Session.start policy ⟨[], limit⟩ files)
      (.start (Session.start policy .unlimited files)) := by
  have hplaced : (Record.start (Session.start policy .unlimited files)).Placed := by
    intro j entry hentry
    cases hentry
  refine ⟨rfl, rfl, hplaced, rfl, rfl, ?_, fun k _ => Nat.zero_le k⟩
  cases limit <;> rfl

theorem Abreast.eq_session (h : Abreast none s r) : r.session = s := by
  obtain ⟨hunlimited, hrecorded, -, hsame, htaken, hroom, -⟩ := h
  rw [← Session.silent_onto_taken hroom, ← Session.silent_onto_taken hunlimited, hsame, htaken,
    hrecorded]

theorem Follows.after {p : Session.Action Unit} {q : Record.Action Unit}
    (h : Follows limit (p s) (q r)) :
    ((s.after p).2 = (r.after q).2 ∧ Abreast limit (s.after p).1 (r.after q).1) ∨
      ((s.after p).2 = some .sinkFull ∧ Cut limit (s.after p).1 (r.after q).1) := by
  rw [Session.after, Record.after]
  generalize p s = x, q r = y at h
  cases h with
  | ok a hnext => exact .inl ⟨rfl, hnext⟩
  | error fault hnext => exact .inl ⟨rfl, hnext⟩
  | cut y hcut => cases y <;> exact .inr ⟨rfl, hcut⟩

/-- What a limit of some bytes makes of a run of which there is a record. -/
structure CutOff (k : Nat) (record : Record × Option Fault)
    (full limited : Session × Option Fault) : Prop where
  recorded : (record.1.session, record.2) = full
  bytes : record.1.bytes = full.1.sink.taken
  taken : limited.1.sink.taken = full.1.sink.taken.take k
  whole : full.1.sink.taken.length ≤ k →
    limited.2 = full.2 ∧ limited.1.store = full.1.store ∧ limited.1.files = full.1.files
  /-- Where it does not, all is as it was when the text with the first byte too many was about to be
  written. -/
  stopped : k < full.1.sink.taken.length →
    limited.2 = some .sinkFull ∧ ∃ byte, ∃ s : Session, record.1.journal[k]? = some (byte, s) ∧
      (∃ n ≤ k, s.sink.taken = full.1.sink.taken.take n) ∧
      limited.1.store = s.store ∧ limited.1.files = s.files

theorem cutOff_of_shadows {p : Session.Action Unit} {q : Record.Action Unit}
    (h : ∀ limit, Shadows limit p q) (policy : Policy) (files : Files) (k : Nat) :
    CutOff k ((Record.start (Session.start policy .unlimited files)).after q)
      ((Session.start policy .unlimited files).after p)
      ((Session.start policy (.limited k) files).after p) := by
  have hfull := ((h none).follows (.start none policy files)).after
  have hlimited := ((h (some k)).follows (.start (some k) policy files)).after
  rw [← Sink.unlimited] at hfull
  rw [← Sink.limited] at hlimited
  generalize (Session.start policy .unlimited files).after p = full,
    (Session.start policy (.limited k) files).after p = limited,
    (Record.start (Session.start policy .unlimited files)).after q = record at hfull hlimited ⊢
  obtain ⟨hresult, hrun⟩ | ⟨-, _, ⟨⟩, -⟩ := hfull
  have hlength : full.1.sink.taken.length = record.1.journal.length := by
    rw [hrun.taken, Record.length_bytes]
  obtain ⟨hsame, hbelow⟩ | ⟨hfault, _, ⟨⟩, -, htaken, ⟨byte, t⟩, hentry, hstopped⟩ := hlimited
  · have hfits := hbelow.fits k rfl
    have hkept : limited.1.silent = full.1.silent := hbelow.same.trans hrun.same.symm
    refine ⟨Prod.ext hrun.eq_session hresult.symm, hrun.taken.symm, ?_, fun _ => ?_, ?_⟩
    · rw [hbelow.taken, hrun.taken, List.take_of_length_le]
      rwa [Record.length_bytes]
    · exact ⟨hsame.trans hresult.symm, (congrArg Session.store hkept :),
        (congrArg Session.files hkept :)⟩
    · intro hover
      omega
  · obtain ⟨hk, -⟩ := List.getElem?_eq_some_iff.mp hentry
    refine ⟨Prod.ext hrun.eq_session hresult.symm, hrun.taken.symm, ?_, ?_, fun _ => ?_⟩
    · rw [htaken, hrun.taken]
    · intro hwhole
      omega
    · obtain ⟨n, hn, hbefore⟩ := hrun.placed k _ hentry
      exact ⟨hfault, byte, t, hentry, ⟨n, hn, hbefore.trans (by rw [hrun.taken])⟩,
        (congrArg Session.store hstopped :), (congrArg Session.files hstopped :)⟩

namespace Session

/-- A limit cuts off both scripts and prompts. -/
theorem cutOff_limited (policy : Policy) (files : Files) (input : Bytes) (k : Nat) :
    let unlimited := start policy .unlimited files
    let limited := start policy (.limited k) files
    (∀ echo, CutOff k ((Record.start unlimited).after (Record.console.script echo input.lines))
      (unlimited.runScript echo input) (limited.runScript echo input)) ∧
    ∀ prompt, CutOff k
      ((Record.start unlimited).after (Record.console.interactive prompt input.lines))
      (unlimited.runInteractive prompt input) (limited.runInteractive prompt input) :=
  ⟨fun echo => cutOff_of_shadows (fun _ => .script echo _) policy files k,
    fun prompt => cutOff_of_shadows (fun _ => .interactive prompt _) policy files k⟩

end Session
end Daybook
