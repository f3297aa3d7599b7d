import Daybook.Proofs.Store.Series

/-!
What is on between two instants. Main statement: an insertion meets exactly the events between the
start and the stop of the new one, in order of time, and an instant is busy exactly if an event is
between it and the next.
-/
namespace Daybook
variable {s : Store} {e : Event} {start stop t next : Instant} {name : String}

namespace Event

/-- An event reaches into an interval exactly if it covers an instant of it. -/
theorem between_iff_exists_covers (h : start < stop) :
    e.start < stop ∧ start < e.stop ↔ ∃ t, start ≤ t ∧ t < stop ∧ e.Covers t := by
  constructor
  · intro hbetween
    by_cases hfirst : e.start ≤ start
    · exact ⟨start, Int.le_refl _, h, hfirst, hbetween.2⟩
    · have hlater : start ≤ e.start := Int.le_of_lt (Int.not_le.1 hfirst)
      exact ⟨e.start, hlater, hbetween.1, Int.le_refl _, e.start_lt_stop⟩
  · intro hcovers
    obtain ⟨t, hstart, hstop, hfrom, hto⟩ := hcovers
    exact ⟨Int.lt_of_le_of_lt hfrom hstop, Int.lt_of_le_of_lt hstart hto⟩

end Event

namespace Store

theorem isBusy_iff : s.isBusy t = true ↔ ∃ e ∈ s.events, e.Covers t := by
  simp [isBusy]

theorem eventsBetween_ne_nil_iff :
    s.eventsBetween start stop ≠ [] ↔ ∃ e ∈ s.events, e.start < stop ∧ start < e.stop := by
  simp [eventsBetween, List.filter_eq_nil_iff]

theorem eventsBetween_ne_nil_iff_exists_isBusy (h : start < stop) :
    s.eventsBetween start stop ≠ [] ↔ ∃ t, start ≤ t ∧ t < stop ∧ s.isBusy t = true := by
  simp only [eventsBetween_ne_nil_iff, Event.between_iff_exists_covers h, isBusy_iff]
  constructor
  · rintro ⟨e, he, t, hstart, hstop, hcovers⟩
    exact ⟨t, hstart, hstop, e, he, hcovers⟩
  · rintro ⟨t, hstart, hstop, e, he, hcovers⟩
    exact ⟨e, he, t, hstart, hstop, hcovers⟩

theorem isBusy_iff_eventsBetween_ne_nil (h : t.addSeconds? 1 = some next) :
    s.isBusy t = true ↔ s.eventsBetween t next ≠ [] := by
  have hlater := Instant.lt_of_addSeconds? h (by decide)
  have hnext := Instant.addSeconds?_eq_some_iff.1 h
  rw [eventsBetween_ne_nil_iff_exists_isBusy hlater]
  constructor
  · intro hbusy
    exact ⟨t, Int.le_refl _, hlater, hbusy⟩
  · rintro ⟨u, hstart, hstop, hbusy⟩
    rw [Instant.le_def] at hstart
    rw [Instant.lt_def] at hstop
    obtain rfl : u = t := Instant.ext (by omega)
    exact hbusy

theorem overlapping_eq_eventsBetween (s : Store) (e : Event) :
    s.overlapping e = s.eventsBetween e.start e.stop := rfl

theorem insert_reject_eq_error_iff :
    s.insert e .reject = .error name ↔
      ∃ f rest, s.eventsBetween e.start e.stop = f :: rest ∧ f.name = name := by
  rw [← overlapping_eq_eventsBetween]
  cases h : s.overlapping e with
  | nil => simp [insert, h]
  | cons f rest => simp [insert, h]

theorem insert_reject_fails_iff :
    (∃ name, s.insert e .reject = .error name) ↔ s.eventsBetween e.start e.stop ≠ [] := by
  simp only [insert_reject_eq_error_iff]
  constructor
  · rintro ⟨name, f, rest, hmet, -⟩
    simp [hmet]
  · intro hmet
    obtain ⟨f, rest, hmet⟩ := List.exists_cons_of_ne_nil hmet
    exact ⟨f.name, f, rest, hmet, rfl⟩

theorem Sorted.pairwise_eventsBetween (hs : s.Sorted) (start stop : Instant) :
    (s.eventsBetween start stop).Pairwise fun e f => e.start ≤ f.start :=
  List.Pairwise.filter _ hs

/-- In a calendar that operations lead to, detection, the query for an interval and the busy status
agree. Where overlaps are only warned of, an insertion returns the names of the events in its
interval; where they are declined, it fails exactly if there is one, for the first by start, and the
calendar stays. An instant is busy exactly if an event is between it and the next, and exactly if
every event of this one second is declined. -/
theorem detection_agrees_with_queries (ops : List Operation) :
    let s := empty.run ops
    (∀ e : Event,
      s.insert e .warn =
          .ok (s.add e, (s.eventsBetween e.start e.stop).map Event.name) ∧
        ((∃ name, s.insert e .reject = .error name) ↔ s.eventsBetween e.start e.stop ≠ []) ∧
        (∀ name, s.insert e .reject = .error name →
          s.perform (.insert e .reject) = s ∧
            ∃ f rest, s.eventsBetween e.start e.stop = f :: rest ∧ f.name = name ∧
              ∀ g ∈ rest, f.start ≤ g.start) ∧
        (s.eventsBetween e.start e.stop = [] → s.insert e .reject = s.insert e .warn)) ∧
      ∀ t next, t.addSeconds? 1 = some next →
        (s.isBusy t = true ↔ s.eventsBetween t next ≠ []) ∧
          ∀ name, name ≠ "" → ∃ e, Event.timed name t next = .ok e ∧
            (s.isBusy t = true ↔ ∃ met, s.insert e .reject = .error met) := by
  intro s
  have hsorted : s.Sorted := sorted_empty.run ops
  refine ⟨fun e => ⟨rfl, insert_reject_fails_iff, fun name hdeclined => ⟨?_, ?_⟩, fun hmet => ?_⟩,
    fun t next hnext => ⟨isBusy_iff_eventsBetween_ne_nil hnext, fun name hname => ?_⟩⟩
  · rw [perform, hdeclined]
  · obtain ⟨f, rest, hmet, hf⟩ := insert_reject_eq_error_iff.1 hdeclined
    have hordered := hsorted.pairwise_eventsBetween e.start e.stop
    rw [hmet] at hordered
    exact ⟨f, rest, hmet, hf, (List.pairwise_cons.1 hordered).1⟩
  · rw [insert_of_accepted (.inr hmet), insert_of_accepted (.inl rfl)]
  · have hlater := Instant.lt_of_addSeconds? hnext (by decide)
    refine ⟨⟨name, t, next, false, "", "", true, hlater⟩, ?_, ?_⟩
    · rw [Event.timed, if_neg hname, dif_pos hlater]
    · rw [insert_reject_fails_iff]
      exact isBusy_iff_eventsBetween_ne_nil hnext

def twoMeetings : List Operation :=
  [.insert ⟨"Late", ⟨63850847400, by decide, by decide⟩, ⟨63850852800, by decide, by decide⟩, false,
      "", "", true, by decide⟩ .warn,
    .insert ⟨"Early", ⟨63850842000, by decide, by decide⟩, ⟨63850848300, by decide, by decide⟩,
      false, "", "", true, by decide⟩ .warn]

def review : Event :=
  ⟨"Review", ⟨63850845600, by decide, by decide⟩, ⟨63850849200, by decide, by decide⟩, false, "", "",
    true, by decide⟩

def lunch : Event :=
  ⟨"Lunch", ⟨63850852800, by decide, by decide⟩, ⟨63850856400, by decide, by decide⟩, false, "", "",
    true, by decide⟩

theorem detection_agrees_with_queries_twoMeetings :
    let s := empty.run twoMeetings
    (s.eventsBetween review.start review.stop).map Event.name = ["Early", "Late"] ∧
      s.insert review .reject = .error "Early" ∧ s.perform (.insert review .reject) = s ∧
      s.insert lunch .reject = s.insert lunch .warn ∧
      (∃ e, Event.timed "Call" review.start ⟨63850845601, by decide, by decide⟩ = .ok e ∧
        ∃ met, s.insert e .reject = .error met) := by
  intro s
  obtain ⟨hinsert, hbusy⟩ := detection_agrees_with_queries twoMeetings
  have hdeclined : s.insert review .reject = .error "Early" := by decide +kernel
  obtain ⟨-, -, hreview, -⟩ := hinsert review
  obtain ⟨-, -, -, hlunch⟩ := hinsert lunch
  obtain ⟨-, hcall⟩ :=
    hbusy review.start ⟨63850845601, by decide, by decide⟩ (by decide +kernel)
  obtain ⟨e, he, hsame⟩ := hcall "Call" (by decide)
  exact ⟨by decide +kernel, hdeclined, (hreview _ hdeclined).1, hlunch (by decide +kernel), e, he,
    hsame.1 (by decide +kernel)⟩

end Store
end Daybook
