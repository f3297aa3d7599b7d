import Daybook.Proofs.Command.Canonical
import Daybook.Proofs.Command.Clauses
import Daybook.Proofs.Command.Texts

/-!
Names that can be addressed. Main statements: a create line that uses such a name gives it to its
command as it is written, and so does the line of an edit by name, though the two cut it out at
different keywords.
-/
namespace Daybook
open Outline
variable {b : List Token} {stops : List Keyword} {lo i j : Nat} {line name : String} {k : Keyword}
  {c : Command}

/-- A name from the start of a word to the end of one, without the keywords at which create commands
and edits look for the end of a name, and without a flag. -/
structure Addressable (name : String) : Prop where
  phrase : Phrase name.toList
  free : ∀ k ∈ [Keyword.from_, .on_, .with_, .autoDecline], Token.keyword k ∉ tokensOf name.toList

def Uses (line : List Char) (name : String) (k : Keyword) : Prop :=
  ∃ opening c rest, withoutFlags line = opening ++ c :: name.toList ++ rest ∧
    isSeparator c = true ∧ Detached rest ∧ tokensOf opening = Verb.createEvent.tokens ∧
    (tokensOf rest).head? = some (.keyword k)

namespace Outline

theorem FirstAt.unique (hi : FirstAt b stops lo i) (hj : FirstAt b stops lo j) : i = j := by
  have hle : ∀ {i j : Nat}, FirstAt b stops lo i → FirstAt b stops lo j → i ≤ j := by
    intro i j hi hj
    obtain ⟨hlo, ⟨k, hk, hstop⟩, -⟩ := hj
    refine Nat.le_of_not_lt fun hlt => ?_
    exact hi.2.2 j hlo hlt k hk hstop
  exact Nat.le_antisymm (hle hi hj) (hle hj hi)

/-- A name without a stop goes up to the first stop behind it. -/
theorem firstAt_of_free (before : List Token) {name l : List Token} (hk : k ∈ stops)
    (hfree : ∀ k ∈ stops, Token.keyword k ∉ name) :
    FirstAt (before ++ (name ++ .keyword k :: l)) stops before.length
      (before.length + name.length) := by
  refine ⟨Nat.le_add_right _ _, ⟨k, hk, ?_⟩, fun m hle hlt x hx h => ?_⟩
  · rw [List.getElem?_append_right (Nat.le_add_right _ _), Nat.add_sub_cancel_left]
    simp
  · rw [List.getElem?_append_right hle, List.getElem?_append_left (by omega)] at h
    exact hfree x hx (List.mem_of_getElem? h)

theorem shape_editNamed (property : Token) {name value : List Token} (hname : name ≠ [])
    (hvalue : value ≠ []) (hfree : ∀ k ∈ [Keyword.from_, .with_], Token.keyword k ∉ name) :
    Shape (property :: (name ++ .keyword .with_ :: value)) .editEvents
      (.editMany ⟨0, 1⟩ ⟨1, 1 + name.length⟩ none
        ⟨1 + name.length + 1, 1 + name.length + 1 + value.length⟩) := by
  have hfirst : FirstAt (property :: (name ++ .keyword .with_ :: value)) [.from_, .with_] 1
      (1 + name.length) := firstAt_of_free [property] (by simp) hfree
  have hpos := List.length_pos_iff.2 hname
  have hdrop : (property :: (name ++ .keyword .with_ :: value)).drop (1 + name.length) =
      .keyword .with_ :: value := by
    rw [Nat.add_comm, List.drop_succ_cons, List.drop_left]
  have hlen : (property :: (name ++ .keyword .with_ :: value)).length =
      1 + name.length + 1 + value.length := by
    simp only [List.length_cons, List.length_append]
    omega
  rw [← hlen]
  exact .editNamed hfirst (by omega) hdrop hvalue

end Outline

theorem Phrase.tokensOf_ne_nil {p : List Char} (h : Phrase p) : tokensOf p ≠ [] := by
  obtain ⟨r, rs, hruns, -⟩ := h.head_runs 0
  rw [tokensOf, ← map_text_runs 0, hruns]
  exact List.cons_ne_nil _ _

theorem outlined_of_shape {line : List Char} {verb : Verb} {o : Outline}
    (hcreate : verb ≠ .createEvent) (htokens : tokensOf line = verb.tokens ++ b)
    (h : Shape b verb o) : Outlined line verb o where
  verb_eq := by rw [htokens, Verb.of?_append]
  read_eq := by
    rw [map_ofWord_body, if_neg hcreate, htokens, List.drop_left]
    exact read_eq_ok_iff.2 h

namespace Command

def timeKeyword? : Command → Option Keyword
  | createTimed .. => some .from_
  | createAllDay .. => some .on_
  | _ => none

theorem shape_of_timeKeyword {verb : Verb} {o : Outline} {text : Span → String} {flagged : Bool}
    (hshape : Shape b verb o) (h : ofOutline text flagged o = .ok c)
    (hk : c.timeKeyword? = some k) :
    verb = .createEvent ∧ ∃ n, FirstAt b [k] 0 n ∧ c.texts = [text ⟨0, n⟩] := by
  have hverb : c.verb = .createEvent := by cases c <;> cases hk <;> rfl
  obtain rfl : verb = .createEvent := (verb_of_ofOutline hshape h).symm.trans hverb
  cases hshape with
  | createTimed hat hr =>
    simp only [ofOutline, bind_eq_ok_iff] at h
    obtain ⟨_, -, _, -, _, -, hpure⟩ := h
    cases hpure
    cases hk
    exact ⟨rfl, _, hat.1, rfl⟩
  | createAllDay hno hfirst hpos hlen hr =>
    simp only [ofOutline, bind_eq_ok_iff] at h
    obtain ⟨_, -, _, -, hpure⟩ := h
    cases hpure
    cases hk
    exact ⟨rfl, _, hfirst, rfl⟩

theorem exists_body_of_uses {line : List Char} (huses : Uses line name k)
    (hverb : Verb.of? (tokensOf line) = some .createEvent) :
    ∃ l, (Verb.createEvent.body line).map Token.ofWord =
      tokensOf name.toList ++ .keyword k :: l := by
  obtain ⟨opening, sep, rest, hleft, hsep, hrest, hopening, hhead⟩ := huses
  obtain ⟨l, hl⟩ : ∃ l, tokensOf rest = .keyword k :: l := List.head?_eq_some_iff.1 hhead
  have hone : ∀ e ∈ [sep], isSeparator e = true := fun e he => List.mem_singleton.1 he ▸ hsep
  have htokens : tokensOf (withoutFlags line) =
      Verb.createEvent.tokens ++ (tokensOf name.toList ++ .keyword k :: l) := by
    rw [hleft, tokensOf, List.append_assoc, List.cons_append, words_append (detached_cons hsep),
      ← List.singleton_append, words_of_separators hone, words_append hrest, List.map_append,
      List.map_append, ← hl, ← hopening]
    rfl
  refine ⟨l, ?_⟩
  rw [Verb.body, List.map_drop, ← words_left hverb, Verb.left, if_pos rfl, ← tokensOf, htokens,
    List.drop_left]

/-- A create command has the name that its line uses. -/
theorem texts_of_uses (hname : Addressable name) (hparse : parse line = .ok c)
    (hk : c.timeKeyword? = some k) (huses : Uses line.toList name k) : c.texts = [name] := by
  obtain ⟨verb, o, ho⟩ := exists_outlined hparse
  obtain ⟨d, hread, hd, htext, -⟩ := ho.exists_draft
  obtain ⟨rfl, n, hfirst, htexts⟩ := shape_of_timeKeyword (read_eq_ok_iff.1 ho.read_eq)
    (hread.symm.trans hparse) hk
  -- the name ends at the first keyword `k`, and it holds none itself
  have hplace : n = (tokensOf name.toList).length := by
    have hfree : ∀ k' ∈ [k], Token.keyword k' ∉ tokensOf name.toList := by
      intro k' hk'
      obtain rfl := List.mem_singleton.1 hk'
      refine hname.free k' ?_
      cases c with
      | createTimed | createAllDay =>
        cases hk
        simp
      | _ => cases hk
    obtain ⟨l, hbody⟩ := exists_body_of_uses huses ho.verb_eq
    rw [hbody] at hfirst
    have hplace := hfirst.unique (firstAt_of_free [] List.mem_cons_self hfree)
    rwa [List.length_nil, Nat.zero_add] at hplace
  obtain ⟨opening, sep, rest, hleft, hsep, hrest, hopening, -⟩ := huses
  have htext' : d.text = opening ++ sep :: name.toList ++ rest := by
    rw [htext, Verb.left, if_pos rfl, hleft]
  have hcount : (words opening).length = Verb.createEvent.tokens.length + 0 := by
    rw [← length_tokensOf, hopening, Nat.add_zero]
  have hslice := hd.slice_phrase htext' hsep hname.phrase hrest hcount
  rw [Nat.zero_add, ← length_tokensOf, ← hplace, String.ofList_toList] at hslice
  rw [htexts, hslice]

theorem parse_editNamed {property value : String} (hne : property.toList ≠ [])
    (hunbroken : ∀ c ∈ property.toList, isSeparator c = false) (hname : Addressable name)
    (hvalue : Phrase value.toList) :
    parse (editNamed property name value).line = .ok (editNamed property name value) := by
  have hline : (editNamed property name value).line.toList = Verb.editEvents.text.toList ++
      [property.toList, name.toList, Keyword.with_.text.toList, value.toList].flatMap
        (' ' :: ·) := by
    rw [toList_line]
    exact List.append_nil _
  have htokens : tokensOf (editNamed property name value).line.toList = Verb.editEvents.tokens ++
      Token.ofWord property.toList ::
        (tokensOf name.toList ++ .keyword .with_ :: tokensOf value.toList) := by
    have hone : tokensOf property.toList = [Token.ofWord property.toList] := by
      rw [tokensOf, words_word hne hunbroken, List.map_singleton]
    rw [hline, tokensOf_joined, tokensOf_verb]
    simp only [List.flatMap_cons, List.flatMap_nil, List.append_nil, Keyword.tokensOf_text, hone,
      List.singleton_append]
  have hshape := shape_editNamed (Token.ofWord property.toList) hname.phrase.tokensOf_ne_nil
    hvalue.tokensOf_ne_nil fun k hk => hname.free k (by grind)
  obtain ⟨d, hparse, hd, htext, -⟩ :=
    (outlined_of_shape (by decide) htokens hshape).exists_draft
  obtain ⟨j, hlaid, -⟩ := laid_parts hshape
  have hverb : (words Verb.editEvents.text.toList).length = Verb.editEvents.tokens.length + 0 := by
    rw [← length_tokensOf, tokensOf_verb, Nat.add_zero]
  have hfits₀ : Part.Fits (.clause ⟨0, 1⟩) property.toList :=
    ⟨phrase_of_word hne hunbroken, by rw [words_word hne hunbroken]; rfl⟩
  have hfits : ∀ {p : List Char} {i : Nat}, Phrase p →
      Part.Fits (.clause ⟨i, i + (tokensOf p).length⟩) p := fun hp =>
    ⟨hp, by rw [length_tokensOf, Nat.add_sub_cancel_left]⟩
  have hholds := holds_of_laid hd hlaid
    (.cons hfits₀ (.cons (hfits hname.phrase) (.cons rfl (.cons (hfits hvalue) .nil))))
    (htext.trans hline) hverb
  simp only [parts, List.forall₂_cons, Part.Holds, String.ofList_toList, true_and] at hholds
  obtain ⟨hproperty', hname', hvalue', -⟩ := hholds
  rw [hparse, ofOutline, hproperty', hname', hvalue']
  rfl

end Command
end Daybook
