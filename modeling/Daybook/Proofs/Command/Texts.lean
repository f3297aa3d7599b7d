import Daybook.Command.Line
import Daybook.Proofs.Results

/-!
Texts of commands. Main statement: no character of a name, a property, a value or a path is made up;
each stands in the line that the command is read off, whether or not flags were cut out of it.
-/
namespace Daybook
variable {as bs cs : List Char} {c : Char} {n : Nat}

theorem append_of_splitBytes?_eq_some (h : splitBytes? n cs = some (as, bs)) : as ++ bs = cs := by
  induction cs generalizing n as with
  | nil =>
    cases n with
    | zero =>
      cases h
      rfl
    | succ n => cases h
  | cons c cs ih =>
    cases n with
    | zero =>
      cases h
      rfl
    | succ n =>
      rw [splitBytes?] at h
      split at h
      · obtain ⟨⟨ds, es⟩, hrest, hpair⟩ := Option.map_eq_some_iff.1 h
        cases hpair
        exact congrArg (c :: ·) (ih hrest)
      · cases h

theorem mem_of_mem_sliceBytes? {span : Span} (h : sliceBytes? cs span = some as) (hc : c ∈ as) :
    c ∈ cs := by
  simp only [sliceBytes?, Option.bind_eq_bind, Option.bind_eq_some_iff] at h
  obtain ⟨⟨before, rest⟩, hbefore, h⟩ := h
  split at h
  · obtain ⟨⟨middle, after⟩, hmiddle, hpure⟩ := Option.bind_eq_some_iff.1 h
    cases hpure
    have hrest : middle ++ after = rest := append_of_splitBytes?_eq_some hmiddle
    rw [← append_of_splitBytes?_eq_some hbefore, ← hrest]
    exact List.mem_append_right before (List.mem_append_left after hc)
  · cases h

theorem Source.mem_of_mem_slice {src : Source} {tokens : Span} (hc : c ∈ (src.slice tokens).toList) :
    c ∈ src.text := by
  have hempty : c ∉ "".toList := List.not_mem_nil
  rw [Source.slice] at hc
  split at hc
  · split at hc
    · rename_i first last _ _
      rw [String.toList_ofList] at hc
      cases hslice : sliceBytes? src.text ⟨first.start, last.stop⟩ with
      | none =>
        rw [hslice] at hc
        exact absurd hc hempty
      | some cs =>
        rw [hslice] at hc
        exact mem_of_mem_sliceBytes? hslice hc
    · exact absurd hc hempty
  · exact absurd hc hempty

namespace Draft

theorem mem_of_mem_cut {span : Span} (hc : c ∈ cut cs span) : c ∈ cs := by
  rw [cut] at hc
  split at hc
  · rename_i before rest front after hbefore hafter
    obtain hc | hc := List.mem_append.1 hc
    · rw [← append_of_splitBytes?_eq_some hbefore]
      exact List.mem_append_left rest hc
    · rw [← append_of_splitBytes?_eq_some hafter]
      exact List.mem_append_right front hc
  · exact hc

/-- Step: a token brings no character in. -/
theorem mem_of_mem_push {d : Draft} {l : Lexeme} (hc : c ∈ (d.push l).text) : c ∈ d.text := by
  rw [push] at hc
  split at hc
  · exact mem_of_mem_cut hc
  · exact hc

/-- Run: what is left of a line holds characters of the line only. -/
theorem mem_of_mem_foldl_push {d : Draft} {ls : List Lexeme} (hc : c ∈ (ls.foldl push d).text) :
    c ∈ d.text := by
  induction ls generalizing d with
  | nil => exact hc
  | cons l ls ih => exact mem_of_mem_push (ih hc)

end Draft

namespace Command
variable {line t : String} {command : Command}

def texts : Command → List String
  | createTimed name _ _ _ _ | createAllDay name _ _ _ => [name]
  | editSingle property name _ _ value | editFrom property name _ value
  | editNamed property name value => [property, name, value]
  | exportTo _ path => [path]
  | queryOn _ | queryRange _ _ | showStatus _ => []

theorem exists_of_mem_texts {text : Span → String} {flagged : Bool} {o : Outline}
    (h : ofOutline text flagged o = .ok command) (ht : t ∈ command.texts) : ∃ s, t = text s := by
  have hsome : ∀ ss : List Span, command.texts = ss.map text → ∃ s, t = text s := by
    intro ss hss
    rw [hss] at ht
    obtain ⟨s, -, hs⟩ := List.mem_map.1 ht
    exact ⟨s, hs.symm⟩
  cases o with
  | createTimed name start stop repeats =>
    simp only [ofOutline, bind_eq_ok_iff] at h
    obtain ⟨_, -, _, -, _, -, hpure⟩ := h
    cases hpure
    exact hsome [name] rfl
  | createAllDay name date repeats =>
    simp only [ofOutline, bind_eq_ok_iff] at h
    obtain ⟨_, -, _, -, hpure⟩ := h
    cases hpure
    exact hsome [name] rfl
  | editSingle property name start stop value =>
    simp only [ofOutline, bind_eq_ok_iff] at h
    obtain ⟨_, -, _, -, hpure⟩ := h
    cases hpure
    exact hsome [property, name, value] rfl
  | editMany property name start value =>
    cases start with
    | none =>
      cases h
      exact hsome [property, name, value] rfl
    | some start =>
      simp only [ofOutline, bind_eq_ok_iff] at h
      obtain ⟨_, -, hpure⟩ := h
      cases hpure
      exact hsome [property, name, value] rfl
  | printOn date | showStatus date =>
    simp only [ofOutline, bind_eq_ok_iff] at h
    obtain ⟨_, -, hpure⟩ := h
    cases hpure
    exact hsome [] rfl
  | printRange start stop =>
    simp only [ofOutline, bind_eq_ok_iff] at h
    obtain ⟨_, -, _, -, hpure⟩ := h
    cases hpure
    exact hsome [] rfl
  | exportTo dialect path =>
    cases h
    exact hsome [path] rfl

/-- A character of a text of a command stands in the line. -/
theorem mem_line_of_mem_texts (h : parse line = .ok command) (ht : t ∈ command.texts)
    (hc : c ∈ t.toList) : c ∈ line.toList := by
  rw [parse] at h
  split at h
  · cases h
  · rename_i verb _
    simp only [ofDraft, bind_eq_ok_iff] at h
    obtain ⟨o, -, ho⟩ := h
    obtain ⟨s, rfl⟩ := exists_of_mem_texts ho ht
    have hleft := Source.mem_of_mem_slice hc
    rw [Draft.source] at hleft
    by_cases hcreate : verb = .createEvent
    · rw [if_pos hcreate] at hleft
      exact Draft.mem_of_mem_foldl_push hleft
    · rw [if_neg hcreate] at hleft
      exact hleft

end Command
end Daybook
