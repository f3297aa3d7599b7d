import Daybook.Proofs.Command.Words

/-!
Texts without their flags. A flag goes with the one separator before it; other separators stay, so
that the words on both sides of a flag are not joined.
-/
namespace Daybook
variable {as bs w rest : List Char}

def isFlag (w : List Char) : Bool := Token.ofWord w == .keyword .autoDecline

theorem isFlag_iff : isFlag w = true ↔ Token.ofWord w = .keyword .autoDecline := beq_iff_eq

theorem isFlag_nil : isFlag [] = false := by decide

/-- A text without the flags that stand behind a separator, and without those separators. `inside`
tells that the text starts in the middle of such a flag. -/
def dropFlags (inside : Bool) : List Char → List Char
  | [] => []
  | c :: cs =>
    if isSeparator c then
      if isFlag (cs.takeWhile (!isSeparator ·)) then dropFlags true cs
      else c :: dropFlags false cs
    else if inside then dropFlags true cs
    else c :: dropFlags false cs

def withoutFlags (line : List Char) : List Char := dropFlags false line

theorem takeWhile_of_detached (h : Detached bs) : bs.takeWhile (!isSeparator ·) = [] := by
  cases bs with
  | nil => rfl
  | cons b bs => simp [h b rfl]

theorem takeWhile_word (hw : ∀ c ∈ w, isSeparator c = false) (hrest : Detached rest) :
    (w ++ rest).takeWhile (!isSeparator ·) = w := by
  rw [List.takeWhile_append_of_pos (by simpa using hw), takeWhile_of_detached hrest,
    List.append_nil]

theorem dropFlags_of_detached (h : Detached bs) : dropFlags true bs = dropFlags false bs := by
  cases bs with
  | nil => rfl
  | cons b bs => rw [dropFlags, dropFlags, if_pos (h b rfl), if_pos (h b rfl)]

theorem dropFlags_separator {c : Char} (hc : isSeparator c = true) (h : Detached bs) :
    dropFlags false (c :: bs) = c :: dropFlags false bs := by
  rw [dropFlags, if_pos hc, takeWhile_of_detached h, isFlag_nil, if_neg (by decide)]

theorem dropFlags_separators (has : ∀ c ∈ as, isSeparator c = true) (h : Detached bs) :
    dropFlags false (as ++ bs) = as ++ dropFlags false bs := by
  induction as with
  | nil => rfl
  | cons a as ih =>
    have has' : ∀ c ∈ as, isSeparator c = true := fun c hc => has c (List.mem_cons_of_mem a hc)
    have hdetached : Detached (as ++ bs) := by
      cases as with
      | nil => exact h
      | cons c as => exact detached_cons (has' c List.mem_cons_self)
    rw [List.cons_append, dropFlags_separator (has a List.mem_cons_self) hdetached, ih has']
    rfl

theorem dropFlags_word (inside : Bool) (hw : ∀ c ∈ w, isSeparator c = false)
    (hrest : Detached rest) :
    dropFlags inside (w ++ rest) = (if inside then [] else w) ++ dropFlags false rest := by
  induction w with
  | nil =>
    cases inside with
    | true => exact dropFlags_of_detached hrest
    | false => rfl
  | cons c w ih =>
    have hc : isSeparator c = false := hw c List.mem_cons_self
    have ih := ih fun d hd => hw d (List.mem_cons_of_mem c hd)
    rw [List.cons_append, dropFlags, if_neg (by simp [hc])]
    cases inside with
    | true => exact ih
    | false => exact congrArg (c :: ·) ih

theorem dropFlags_first_word {seps : List Char} (hseps : ∀ c ∈ seps, isSeparator c = true)
    (hw : ∀ c ∈ w, isSeparator c = false) (hrest : Detached rest) (hflag : isFlag w = false) :
    dropFlags false (seps ++ w ++ rest) = seps ++ w ++ dropFlags false rest := by
  rcases seps.eq_nil_or_concat with rfl | ⟨seps, c, rfl⟩
  · exact dropFlags_word false hw hrest
  · rw [List.concat_eq_append] at hseps ⊢
    have hc : isSeparator c = true := hseps c (by simp)
    have hstep : dropFlags false (c :: (w ++ rest)) = c :: (w ++ dropFlags false rest) := by
      rw [dropFlags, if_pos hc, takeWhile_word hw hrest, hflag, if_neg (by decide),
        dropFlags_word false hw hrest]
      rfl
    rw [List.append_assoc, List.append_assoc, List.singleton_append,
      dropFlags_separators (fun d hd => hseps d (by simp [hd])) (detached_cons hc), hstep]
    simp

theorem dropFlags_flag {seps : List Char} {c : Char} (hseps : ∀ d ∈ seps, isSeparator d = true)
    (hc : isSeparator c = true) (hw : ∀ d ∈ w, isSeparator d = false) (hrest : Detached rest)
    (hflag : isFlag w = true) :
    dropFlags false (seps ++ [c] ++ w ++ rest) = seps ++ dropFlags false rest := by
  have hstep : dropFlags false (c :: (w ++ rest)) = dropFlags false rest := by
    rw [dropFlags, if_pos hc, takeWhile_word hw hrest, if_pos hflag, dropFlags_word true hw hrest]
    rfl
  rw [List.append_assoc, List.append_assoc, List.singleton_append,
    dropFlags_separators hseps (detached_cons hc), hstep]

theorem dropFlags_append (pos : Nat) (has : ∀ r ∈ runs pos as, isFlag r.text = false)
    (hb : Detached bs) : dropFlags false (as ++ bs) = as ++ dropFlags false bs := by
  generalize hrs : runs pos as = rs at has
  induction rs generalizing as pos with
  | nil => exact dropFlags_separators (separators_of_runs_eq_nil hrs) hb
  | cons r rs ih =>
    obtain ⟨seps, rest, rfl, hseps, -, hw, hrest, -, htail⟩ := exists_of_runs_eq_cons hrs
    have hrest' : Detached (rest ++ bs) := by
      cases rest with
      | nil => exact hb
      | cons c rest => exact detached_cons (hrest c rfl)
    rw [List.append_assoc _ rest, dropFlags_first_word hseps hw hrest' (has r List.mem_cons_self),
      ih _ htail fun q hq => has q (List.mem_cons_of_mem r hq), List.append_assoc _ rest]

theorem isFlag_of_mem_runs {r : Run} {pos : Nat} (h : .keyword .autoDecline ∉ tokensOf as)
    (hr : r ∈ runs pos as) : isFlag r.text = false := by
  rw [Bool.eq_false_iff, ne_eq, isFlag_iff]
  intro hflag
  refine h ?_
  rw [tokensOf, ← map_text_runs pos, ← hflag]
  exact List.mem_map_of_mem (List.mem_map_of_mem hr)

theorem withoutFlags_append (h : .keyword .autoDecline ∉ tokensOf as) (hb : Detached bs) :
    withoutFlags (as ++ bs) = as ++ dropFlags false bs :=
  dropFlags_append 0 (fun _ => isFlag_of_mem_runs h) hb

theorem withoutFlags_eq_self (h : .keyword .autoDecline ∉ tokensOf as) : withoutFlags as = as := by
  have hnil := withoutFlags_append h detached_nil
  rwa [dropFlags, List.append_nil] at hnil

/-- What stays of a text behind a separator stands behind one too, and its words are those that are
no flags. -/
theorem words_dropFlags (h : Detached as) :
    Detached (dropFlags false as) ∧ words (dropFlags false as) = (words as).filter (!isFlag ·) := by
  generalize hrs : runs 0 as = rs
  generalize 0 = pos at hrs
  induction rs generalizing as pos with
  | nil =>
    have hseps := separators_of_runs_eq_nil hrs
    have hsame : dropFlags false as = as := by
      simpa [dropFlags] using dropFlags_separators hseps detached_nil
    rw [hsame, words_eq_nil hseps]
    exact ⟨h, rfl⟩
  | cons r rs ih =>
    obtain ⟨seps, rest, rfl, hseps, hne, hw, hrest, -, htail⟩ := exists_of_runs_eq_cons hrs
    obtain ⟨hdetached, hwords⟩ := ih hrest _ htail
    obtain ⟨front, c, rfl⟩ := exists_separator_before h hne hw
    have hc : isSeparator c = true := hseps c (by simp)
    have hfront : ∀ d ∈ front, isSeparator d = true := fun d hd => hseps d (by simp [hd])
    rw [words_first_word hseps hne hw hrest]
    cases hflag : isFlag r.text with
    | true =>
      rw [dropFlags_flag hfront hc hw hrest hflag, words_of_separators hfront, hwords]
      refine ⟨?_, by simp [hflag]⟩
      cases front with
      | nil => exact hdetached
      | cons d front => exact detached_cons (hfront d List.mem_cons_self)
    | false =>
      rw [dropFlags_first_word hseps hw hrest hflag, words_first_word hseps hne hw hdetached,
        hwords]
      refine ⟨?_, by simp [hflag]⟩
      cases front with
      | nil => exact detached_cons hc
      | cons d front => exact detached_cons (hfront d List.mem_cons_self)

/-- In a text that opens with no flag the words that stay are those that are no flags. -/
theorem words_withoutFlags (h : ∀ w ∈ (words as).head?, isFlag w = false) :
    words (withoutFlags as) = (words as).filter (!isFlag ·) := by
  rcases first_word as with hseps | ⟨seps, w, rest, rfl, hseps, hne, hw, hrest⟩
  · have hsame : withoutFlags as = as := by
      simpa [withoutFlags, dropFlags] using dropFlags_separators hseps detached_nil
    rw [hsame, words_eq_nil hseps]
    rfl
  · obtain ⟨hdetached, hwords⟩ := words_dropFlags hrest
    have hsplit := words_first_word hseps hne hw hrest
    have hflag : isFlag w = false := h w (by rw [hsplit]; rfl)
    rw [withoutFlags, dropFlags_first_word hseps hw hrest hflag, hsplit,
      words_first_word hseps hne hw hdetached, hwords]
    simp [hflag]

end Daybook
