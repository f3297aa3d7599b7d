import Daybook.Proofs.Command.Layout
import Daybook.Proofs.Command.Literals

/-!
What the commands of lines hold. Main statement: names and new values are phrases, and times stand
on whole minutes, whatever the line was.
-/
namespace Daybook.Command
open Outline

def Phrased : Command → Prop
  | createTimed name start stop _ _ => Phrase name.toList ∧ start.OnMinute ∧ stop.OnMinute
  | createAllDay name _ _ _ => Phrase name.toList
  | editSingle _ _ _ _ value | editFrom _ _ _ value | editNamed _ _ value => Phrase value.toList
  | _ => True

theorem phrased_of_ofOutline {text : Span → String} {flagged : Bool} {o : Outline} {c : Command}
    (hphrases : ∀ s ∈ spans o.parts, Phrase (text s).toList)
    (h : ofOutline text flagged o = .ok c) : c.Phrased := by
  cases o with
  | createTimed name start stop repeats =>
    simp only [ofOutline, bind_eq_ok_iff] at h
    obtain ⟨from_, hfrom, to_, hto, rule, -, hpure⟩ := h
    cases hpure
    exact ⟨hphrases name (by simp [parts, spans]), onMinute_of_readInstant hfrom,
      onMinute_of_readInstant hto⟩
  | createAllDay name date repeats =>
    simp only [ofOutline, bind_eq_ok_iff] at h
    obtain ⟨day, -, rule, -, hpure⟩ := h
    cases hpure
    exact hphrases name (by simp [parts, spans])
  | editSingle property name start stop value =>
    simp only [ofOutline, bind_eq_ok_iff] at h
    obtain ⟨from_, -, to_, -, hpure⟩ := h
    cases hpure
    exact hphrases value (by simp [parts, spans])
  | editMany property name start value =>
    have hvalue : Phrase (text value).toList :=
      hphrases value (by cases start <;> simp [parts, spans])
    cases start with
    | none =>
      cases h
      exact hvalue
    | some start =>
      simp only [ofOutline, bind_eq_ok_iff] at h
      obtain ⟨from_, -, hpure⟩ := h
      cases hpure
      exact hvalue
  | printOn date =>
    simp only [ofOutline, bind_eq_ok_iff] at h
    obtain ⟨day, -, hpure⟩ := h
    cases hpure
    trivial
  | printRange start stop =>
    simp only [ofOutline, bind_eq_ok_iff] at h
    obtain ⟨from_, -, to_, -, hpure⟩ := h
    cases hpure
    trivial
  | exportTo dialect path =>
    cases h
    trivial
  | showStatus instant =>
    simp only [ofOutline, bind_eq_ok_iff] at h
    obtain ⟨at_, -, hpure⟩ := h
    cases hpure
    trivial

/-- A command that is read off a line is phrased. -/
theorem phrased_of_parse {line : String} {c : Command} (h : parse line = .ok c) : c.Phrased := by
  obtain ⟨verb, d, hd, hfaithful, -⟩ := exists_draft h
  simp only [ofDraft, bind_eq_ok_iff, mapError_eq_ok_iff] at hd
  obtain ⟨o, hread, hc⟩ := hd
  obtain ⟨_, hlaid, -⟩ := laid_parts (read_eq_ok_iff.1 hread)
  refine phrased_of_ofOutline (fun s hs => ?_) hc
  obtain ⟨p, htext, hp, -⟩ := worded_of_laid hfaithful hlaid s hs
  rwa [htext, String.toList_ofList]

end Daybook.Command
