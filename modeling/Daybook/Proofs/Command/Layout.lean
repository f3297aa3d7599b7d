import Daybook.Proofs.Command.Drafts
import Daybook.Proofs.Command.Parts
import Mathlib.Data.List.Forall2

/-!
Texts of the parts of an outline. Main statements: every clause of an outline that is read off a
line has a phrase as its text; and in a line that is put together from phrases, each clause has
the phrase that was put in its place.
-/
namespace Daybook
variable {d : Draft} {n : Nat} {b : List Token} {i j : Nat}

theorem separators_singleton : ∀ c ∈ [' '], isSeparator c = true := by
  intro c hc
  rw [List.mem_singleton.1 hc]
  rfl

theorem detached_joined (chunks : List (List Char)) : Detached (chunks.flatMap (' ' :: ·)) := by
  cases chunks with
  | nil => exact detached_nil
  | cons t chunks => exact detached_cons rfl

theorem tokensOf_joined (before : List Char) (chunks : List (List Char)) :
    tokensOf (before ++ chunks.flatMap (' ' :: ·)) =
      tokensOf before ++ chunks.flatMap tokensOf := by
  rw [tokensOf, words_append (detached_joined chunks), List.map_append]
  congr 1
  induction chunks with
  | nil => rfl
  | cons t chunks ih =>
    have hblank : words (' ' :: t ++ chunks.flatMap (' ' :: ·)) =
        words (t ++ chunks.flatMap (' ' :: ·)) := words_of_separators separators_singleton
    rw [List.flatMap_cons, hblank, words_append (detached_joined chunks), List.map_append, ih,
      List.flatMap_cons, tokensOf]

/-- Tokens in a row that are there have a phrase as their text, which has their words. -/
theorem Draft.Faithful.exists_slice {s : Span} (hd : d.Faithful n) (hlt : s.start < s.stop)
    (hle : n + s.stop ≤ (words d.text).length) :
    ∃ p, d.source.slice s = String.ofList p ∧ Phrase p ∧
      words p = ((words d.text).drop n).extract s.start s.stop ∧
      (words p).length = s.stop - s.start := by
  have hshift : n + s.start < n + s.stop := by omega
  rw [← length_runs d.text 0] at hle
  obtain ⟨before, p, after, htext, hp, hruns⟩ := exists_phrase hshift 0 hle
  rw [Nat.add_sub_add_left] at hruns
  have hwords : words p = ((words d.text).drop n).extract s.start s.stop := by
    rw [← map_text_runs (0 + byteLength before), hruns, List.map_take, List.map_drop,
      map_text_runs, List.extract_eq_take_drop, List.drop_drop]
  have hlen : (words p).length = s.stop - s.start := by
    rw [← length_runs p (0 + byteLength before), hruns, List.length_take, List.length_drop]
    omega
  have hspan : s = ⟨s.start, s.start + (words p).length⟩ := by
    rw [hlen, Nat.add_sub_cancel' (Nat.le_of_lt hlt)]
  have hspans : (d.source.spans.drop s.start).take (words p).length =
      (runs (0 + byteLength before) p).map Run.span := by
    rw [hd.spans, hruns, hlen, ← List.map_drop, List.drop_drop, List.map_take]
  have hslice := slice_phrase after hp (Nat.zero_add _) hspans
  rw [← htext, ← hspan] at hslice
  exact ⟨p, hslice, hp, hwords, hlen⟩

/-- Where a phrase stands behind a separator, the tokens of it have it as their text. -/
theorem Draft.Faithful.slice_phrase {before p after : List Char} {c : Char} (hd : d.Faithful n)
    (htext : d.text = before ++ c :: p ++ after) (hc : isSeparator c = true) (hp : Phrase p)
    (hafter : Detached after) (hbefore : (words before).length = n + i) :
    d.source.slice ⟨i, i + (words p).length⟩ = String.ofList p := by
  have hruns : runs 0 d.text = runs 0 before ++ (runs (byteLength (before ++ [c])) p ++
      runs (byteLength (before ++ [c]) + byteLength p) after) := by
    have hdetached : Detached (c :: (p ++ after)) := detached_cons hc
    have hone : ∀ e ∈ [c], isSeparator e = true := fun e he => List.mem_singleton.1 he ▸ hc
    rw [htext, List.append_assoc, List.cons_append, runs_append hdetached, ← List.singleton_append,
      runs_of_separators hone, runs_append hafter, Nat.zero_add, ← byteLength_append]
  have hspans : (d.source.spans.drop i).take (words p).length =
      (runs (byteLength (before ++ [c])) p).map Run.span := by
    have hcount : (runs 0 before).length = n + i := by rw [length_runs, hbefore]
    rw [hd.spans, ← List.map_drop, List.drop_drop, hruns, ← hcount, List.drop_left,
      List.map_append, ← length_runs p (byteLength (before ++ [c])), ← List.length_map,
      List.take_left]
  have hslice := Daybook.slice_phrase after hp rfl hspans
  have hsource : d.source.text = before ++ [c] ++ p ++ after := by
    rw [Draft.source, htext]
    simp
  rw [← hsource] at hslice
  exact hslice

namespace Outline

def Worded (b : List Token) (text : Span → String) (o : Outline) : Prop :=
  ∀ s ∈ spans o.parts, ∃ p, text s = String.ofList p ∧ Phrase p ∧
    tokensOf p = (Part.clause s).tokens b

def Part.Fits : Part → List Char → Prop
  | .keyword k, t => t = k.text.toList
  | .clause s, t => Phrase t ∧ (words t).length = s.stop - s.start

def Part.Holds (text : Span → String) : Part → List Char → Prop
  | .keyword _, _ => True
  | .clause s, t => text s = String.ofList t

theorem worded_of_laid {o : Outline} (hd : d.Faithful n)
    (hlaid : Laid (d.body.map Lexeme.token) 0 o.parts j) :
    Worded (d.body.map Lexeme.token) d.source.slice o := by
  intro s hs
  obtain ⟨-, hlt, hle⟩ := span_of_laid hlaid hs
  rw [hd.tokens, List.length_drop, length_tokensOf] at hle
  obtain ⟨p, hslice, hp, hwords, -⟩ := hd.exists_slice hlt (by omega)
  refine ⟨p, hslice, hp, ?_⟩
  rw [tokensOf, hwords, Part.tokens, hd.tokens, tokensOf, List.extract_eq_take_drop, List.map_take,
    List.map_drop, List.map_drop]

/-- In a line that is put together from texts for parts, each clause has the text in its place. -/
theorem holds_of_laid {ps : List Part} {chunks : List (List Char)} {before : List Char}
    (hd : d.Faithful n) (hlaid : Laid b i ps j) (hfits : List.Forall₂ Part.Fits ps chunks)
    (htext : d.text = before ++ chunks.flatMap (' ' :: ·))
    (hbefore : (words before).length = n + i) :
    List.Forall₂ (Part.Holds d.source.slice) ps chunks := by
  induction hfits generalizing i before with
  | nil => exact .nil
  | @cons p t ps chunks hfit hfits ih =>
    have htext' : d.text = before ++ ' ' :: t ++ chunks.flatMap (' ' :: ·) := by
      rw [htext, List.flatMap_cons, List.append_assoc]
    have hwords : (words (before ++ ' ' :: t)).length = n + i + (words t).length := by
      have hblank : words (' ' :: t) = words t := words_of_separators separators_singleton
      rw [words_append (detached_cons rfl), List.length_append, hbefore, hblank]
    -- what is gone through grows by a blank and the text of one part
    cases p with
    | keyword k =>
      obtain rfl : t = k.text.toList := hfit
      have hone : (words k.text.toList).length = 1 := by
        rw [← length_tokensOf, k.tokensOf_text]
        rfl
      exact .cons trivial (ih hlaid.2 htext' (by omega))
    | clause s =>
      obtain ⟨hp, hlen⟩ := hfit
      obtain ⟨hstart, hlt, -, hlaid⟩ := hlaid
      refine .cons ?_ (ih hlaid htext' (by omega))
      have hslice := hd.slice_phrase htext' rfl hp (detached_joined chunks) hbefore
      have hspan : s = ⟨i, i + (words t).length⟩ := by
        rw [hlen, ← hstart, Nat.add_sub_cancel' (by omega)]
      rwa [← hspan] at hslice

end Outline
end Daybook
