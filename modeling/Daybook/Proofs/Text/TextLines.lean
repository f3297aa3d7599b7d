import Daybook.Text.Lines

/-!
Lines of a text that is written in UTF-8. Main statements: they are the pieces between line feeds,
each without a carriage return at its end; and behind a line feed a text has the lines that it has
alone.
-/
namespace Daybook
namespace Bytes

/-- A byte below 128 stands for one character, which has no other byte. -/
theorem utf8EncodeChar_of_mem {c : Char} {b : UInt8} (h : b ∈ String.utf8EncodeChar c)
    (hb : b.toNat < 128) : c.toNat = b.toNat ∧ String.utf8EncodeChar c = [b] := by
  unfold String.utf8EncodeChar at h ⊢
  simp only [] at h ⊢
  split at h
  · rename_i hlow
    have hbc := List.mem_singleton.1 h
    subst hbc
    have hlow' : c.toNat ≤ 127 := hlow
    refine ⟨?_, by rw [if_pos hlow]⟩
    change c.toNat = (UInt8.ofNat c.toNat).toNat
    rw [UInt8.toNat_ofNat']
    omega
  · exfalso
    split at h
    · simp only [List.mem_cons, List.not_mem_nil, or_false] at h
      rcases h with rfl | rfl <;> simp only [UInt8.toNat_ofNat'] at hb <;> omega
    · split at h
      · simp only [List.mem_cons, List.not_mem_nil, or_false] at h
        rcases h with rfl | rfl | rfl <;> simp only [UInt8.toNat_ofNat'] at hb <;> omega
      · simp only [List.mem_cons, List.not_mem_nil, or_false] at h
        rcases h with rfl | rfl | rfl | rfl <;> simp only [UInt8.toNat_ofNat'] at hb <;> omega

theorem mem_utf8EncodeChar_iff {c d : Char} (hd : d.toNat < 128) :
    UInt8.ofNat d.toNat ∈ String.utf8EncodeChar c ↔ c = d := by
  have hbyte : (UInt8.ofNat d.toNat).toNat = d.toNat := by
    rw [UInt8.toNat_ofNat']
    omega
  constructor
  · intro h
    have := (utf8EncodeChar_of_mem h (by omega)).1
    exact Char.toNat_inj.1 (this.trans hbyte)
  · rintro rfl
    have hlow : c.val.toNat ≤ 127 := by
      have : c.val.toNat = c.toNat := rfl
      omega
    unfold String.utf8EncodeChar
    simp only [if_pos hlow]
    exact List.mem_singleton.2 rfl

@[simp] theorem ofString_ofList (cs : List Char) :
    ofString (String.ofList cs) = cs.flatMap String.utf8EncodeChar := by
  rw [ofString, String.toList_ofList]

theorem lineFeed_mem_ofString {s : String} : lineFeed ∈ ofString s ↔ '\n' ∈ s.toList := by
  have hiff : ∀ c : Char, lineFeed ∈ String.utf8EncodeChar c ↔ c = '\n' := fun c =>
    mem_utf8EncodeChar_iff (d := '\n') (by decide)
  simp [ofString, List.mem_flatMap, hiff]

theorem count_lineFeed_ofString (s : String) :
    (ofString s).count lineFeed = s.toList.count '\n' := by
  have hone : ∀ c : Char, (String.utf8EncodeChar c).count lineFeed = [c].count '\n' := by
    intro c
    by_cases hc : c = '\n'
    · subst hc
      decide
    · have hnone : lineFeed ∉ String.utf8EncodeChar c := fun h =>
        hc ((mem_utf8EncodeChar_iff (d := '\n') (by decide)).1 h)
      have hother : '\n' ∉ [c] := fun h => hc (List.mem_singleton.1 h).symm
      rw [List.count_eq_zero_of_not_mem hnone, List.count_eq_zero_of_not_mem hother]
  rw [ofString]
  induction s.toList with
  | nil => rfl
  | cons c cs ih =>
    rw [List.flatMap_cons, List.count_append, hone, ih, ← List.count_append, List.singleton_append]

theorem cut?_append {b : Bytes} (h : lineFeed ∉ b) (rest : Bytes) :
    cut? (b ++ lineFeed :: rest) = some (b, rest) := by
  induction b with
  | nil => simp [cut?]
  | cons c b ih =>
    have hc : ¬ c = lineFeed := fun hc => h (hc ▸ List.mem_cons_self)
    have hb : lineFeed ∉ b := fun hb => h (List.mem_cons_of_mem c hb)
    simp [cut?, hc, ih hb]

theorem cut?_eq_none {b : Bytes} (h : lineFeed ∉ b) : cut? b = none := by
  induction b with
  | nil => rfl
  | cons c b ih =>
    have hc : ¬ c = lineFeed := fun hc => h (hc ▸ List.mem_cons_self)
    rw [cut?, if_neg hc, ih fun hb => h (List.mem_cons_of_mem c hb)]
    rfl

end Bytes

def stripReturn (cs : List Char) : List Char :=
  if cs.getLast? = some '\r' then cs.dropLast else cs

theorem stripReturn_concat (cs : List Char) (c : Char) :
    stripReturn (cs ++ [c]) = if c = '\r' then cs else cs ++ [c] := by
  by_cases h : c = '\r' <;> simp [stripReturn, h]

theorem stripReturn_append {cs ds : List Char} (h : ds ≠ []) :
    stripReturn (cs ++ ds) = cs ++ stripReturn ds := by
  rcases List.eq_nil_or_concat ds with rfl | ⟨ds, d, rfl⟩
  · contradiction
  · rw [List.concat_eq_append, ← List.append_assoc, stripReturn_concat, stripReturn_concat]
    by_cases hd : d = '\r' <;> simp [hd]

theorem stripReturn_cons {c : Char} (h : c ≠ '\r') (cs : List Char) :
    stripReturn (c :: cs) = c :: stripReturn cs := by
  cases cs with
  | nil => simpa [stripReturn] using h
  | cons d ds => exact @stripReturn_append [c] (d :: ds) (by simp)

def firstLine (cs : List Char) : List Char := stripReturn (cs.takeWhile (· != '\n'))

theorem firstLine_append_cons {cs : List Char} (h : '\n' ∉ cs) (ds : List Char) :
    firstLine (cs ++ '\n' :: ds) = stripReturn cs := by
  have hplain : ∀ c ∈ cs, (c != '\n') = true := by
    intro c hc
    simpa using fun he : c = '\n' => h (he ▸ hc)
  rw [firstLine, List.takeWhile_append_of_pos hplain]
  simp

theorem firstLine_append_of_mem {cs : List Char} (h : '\n' ∈ cs) (ds : List Char) :
    firstLine (cs ++ ds) = firstLine cs := by
  obtain ⟨before, after, rfl, hnone⟩ := List.eq_append_cons_of_mem h
  rw [List.append_assoc, List.cons_append, firstLine_append_cons hnone, firstLine_append_cons hnone]

namespace Bytes

theorem body_ofString (cs : List Char) :
    (RawLine.mk (ofString (String.ofList cs)) true).body =
      ofString (String.ofList (stripReturn cs)) := by
  rcases List.eq_nil_or_concat cs with rfl | ⟨cs, c, rfl⟩
  · rfl
  · rw [List.concat_eq_append, stripReturn_concat, RawLine.body, ofString_ofList,
      List.flatMap_append, List.flatMap_singleton]
    by_cases h : c = '\r'
    · have hbyte : String.utf8EncodeChar '\r' = [carriageReturn] := by decide
      simp [h, hbyte]
    · have hnone : carriageReturn ∉ String.utf8EncodeChar c := fun hmem =>
        h ((mem_utf8EncodeChar_iff (d := '\r') (by decide)).1 hmem)
      have hlast : ¬ (true = true ∧ (cs.flatMap String.utf8EncodeChar ++
          String.utf8EncodeChar c).getLast? = some carriageReturn) := by
        intro h
        obtain ⟨-, hlast⟩ := h
        rw [List.getLast?_append, List.getLast?_eq_some_getLast String.utf8EncodeChar_ne_nil,
          Option.some_or, Option.some.injEq] at hlast
        exact hnone (hlast ▸ List.getLast_mem _)
      rw [if_neg h, if_neg hlast, ofString_ofList, List.flatMap_append, List.flatMap_singleton]

/-- The first line of a text ends at its first line feed. -/
theorem lines_ofString_cons {cs : List Char} (h : '\n' ∉ cs) (ds : List Char) :
    lines (ofString (String.ofList (cs ++ '\n' :: ds))) =
      some (String.ofList (stripReturn cs)) :: lines (ofString (String.ofList ds)) := by
  have hfeed : String.utf8EncodeChar '\n' = [lineFeed] := by decide
  have hbytes : ofString (String.ofList (cs ++ '\n' :: ds)) =
      ofString (String.ofList cs) ++ lineFeed :: ofString (String.ofList ds) := by
    rw [ofString_ofList, ofString_ofList, ofString_ofList, List.flatMap_append,
      List.flatMap_cons, hfeed]
    rfl
  have hnone : lineFeed ∉ ofString (String.ofList cs) := by
    rwa [lineFeed_mem_ofString, String.toList_ofList]
  rw [hbytes, lines, rawLines_of_cut?_eq_some (cut?_append hnone _), List.map_cons, body_ofString,
    toString?_ofString]
  rfl

theorem ofString_of_toString?_eq_some {b : Bytes} {s : String} (h : toString? b = some s) :
    ofString s = b := by
  obtain ⟨cs, hdecode, rfl⟩ := Option.map_eq_some_iff.1 h
  have hvalid : b.toByteArray.utf8Decode?.isSome = true := by rw [hdecode, Option.isSome_some]
  obtain ⟨chars, hchars⟩ := ByteArray.isSome_utf8Decode?_iff.1 hvalid
  rw [hchars, List.utf8Decode?_utf8Encode, Option.some.injEq] at hdecode
  rw [← hdecode, ofString_ofList]
  rw [List.utf8Encode] at hchars
  simpa using (List.toByteArray_inj.1 hchars).symm

theorem lineFeed_not_mem_of_mem_rawLines {b : Bytes} {l : RawLine} (h : l ∈ rawLines b) :
    lineFeed ∉ l.content := by
  fun_induction rawLines b generalizing l with
  | case1 => cases h
  | case2 bs ih =>
    obtain rfl | h := List.mem_cons.1 h
    · exact List.not_mem_nil
    · exact ih h
  | case3 b bs hb hrest ih =>
    rw [List.mem_singleton.1 h]
    simpa using Ne.symm hb
  | case4 b bs hb first rest hrest ih =>
    rw [hrest] at ih
    obtain rfl | h := List.mem_cons.1 h
    · have hfirst := ih List.mem_cons_self
      simpa [Ne.symm hb] using hfirst
    · exact ih (List.mem_cons_of_mem first h)

/-- Lines are cut at line feeds. -/
theorem lineFeed_not_mem_of_mem_lines {b : Bytes} {line : String} (h : some line ∈ lines b) :
    '\n' ∉ line.toList := by
  obtain ⟨raw, hraw, htext⟩ := List.mem_map.1 h
  have hbody : raw.body.Sublist raw.content := by
    rw [RawLine.body]
    split
    · exact List.dropLast_sublist _
    · exact List.Sublist.refl _
  rw [← lineFeed_mem_ofString, ofString_of_toString?_eq_some htext]
  exact fun hmem => lineFeed_not_mem_of_mem_rawLines hraw (hbody.subset hmem)

theorem lines_ofString_of_mem {cs : List Char} (h : '\n' ∈ cs) :
    ∃ rest, lines (ofString (String.ofList cs)) = some (String.ofList (firstLine cs)) :: rest := by
  obtain ⟨before, after, rfl, hnone⟩ := List.eq_append_cons_of_mem h
  rw [lines_ofString_cons hnone, firstLine_append_cons hnone]
  exact ⟨_, rfl⟩

theorem lines_ofString_of_not_mem {cs : List Char} (h : '\n' ∉ cs) (hne : cs ≠ []) :
    lines (ofString (String.ofList cs)) = [some (String.ofList cs)] := by
  have hnone : lineFeed ∉ ofString (String.ofList cs) := by
    rwa [lineFeed_mem_ofString, String.toList_ofList]
  have hbytes : ofString (String.ofList cs) ≠ [] := by
    obtain ⟨c, rest, rfl⟩ := List.exists_cons_of_ne_nil hne
    rw [ofString_ofList, List.flatMap_cons]
    exact List.append_ne_nil_of_left_ne_nil String.utf8EncodeChar_ne_nil _
  rw [lines, rawLines_of_cut?_eq_none (cut?_eq_none hnone) hbytes, List.map_singleton, RawLine.body,
    if_neg (by simp), toString?_ofString]

theorem exists_lines_ofString (s : String) :
    ∃ ls : List String, lines (ofString s) = ls.map some := by
  rw [← String.ofList_toList (s := s)]
  generalize s.toList = cs
  -- on the length of what is left behind the first line feed
  induction hlength : cs.length using Nat.strongRecOn generalizing cs with
  | ind n ih =>
    by_cases hfeed : '\n' ∈ cs
    · obtain ⟨before, after, rfl, hnone⟩ := List.eq_append_cons_of_mem hfeed
      have hshorter : after.length < n := by
        rw [← hlength, List.length_append, List.length_cons]
        omega
      obtain ⟨ls, hls⟩ := ih after.length hshorter after rfl
      rw [lines_ofString_cons hnone, hls]
      exact ⟨String.ofList (stripReturn before) :: ls, rfl⟩
    · cases cs with
      | nil => exact ⟨[], rfl⟩
      | cons c cs => exact ⟨[_], lines_ofString_of_not_mem hfeed (List.cons_ne_nil c cs)⟩

theorem rawLines_ne_nil {b : Bytes} (h : b ≠ []) : rawLines b ≠ [] := by
  intro hnone
  have hjoin := joinLines_rawLines b
  rw [hnone] at hjoin
  exact h hjoin.symm

theorem rawLines_append_lineFeed (a b : Bytes) :
    rawLines (a ++ [lineFeed] ++ b) = rawLines (a ++ [lineFeed]) ++ rawLines b := by
  induction a with
  | nil => simp [rawLines]
  | cons c a ih =>
    have hsome : a ++ [lineFeed] ≠ [] := by simp
    obtain ⟨l, ls, hlines⟩ := List.exists_cons_of_ne_nil (rawLines_ne_nil hsome)
    rw [hlines] at ih
    rw [List.cons_append, List.cons_append, rawLines, rawLines, ih, hlines]
    split <;> rfl

theorem length_rawLines_append_lineFeed (a : Bytes) :
    (rawLines (a ++ [lineFeed])).length = (a ++ [lineFeed]).count lineFeed := by
  induction a with
  | nil => rfl
  | cons c a ih =>
    have hsome : a ++ [lineFeed] ≠ [] := by simp
    obtain ⟨l, ls, hlines⟩ := List.exists_cons_of_ne_nil (rawLines_ne_nil hsome)
    rw [List.cons_append, rawLines, hlines]
    rw [hlines] at ih
    split
    · rename_i hfeed
      rw [hfeed, List.count_cons_self, ← ih, List.length_cons]
    · rename_i hother
      rw [List.count_cons_of_ne hother, ← ih]
      rfl

theorem exists_ofString_eq_append {s : String} (h : s.toList.getLast? = some '\n') :
    ∃ a, ofString s = a ++ [lineFeed] := by
  obtain ⟨cs, hcs⟩ := List.getLast?_eq_some_iff.1 h
  refine ⟨cs.flatMap String.utf8EncodeChar, ?_⟩
  rw [ofString, hcs, List.flatMap_append]
  rfl

theorem lines_ofString_append {s : String} (h : s = "" ∨ s.toList.getLast? = some '\n')
    (t : String) : lines (ofString (s ++ t)) = lines (ofString s) ++ lines (ofString t) := by
  obtain rfl | h := h
  · rw [String.empty_append]
    rfl
  · obtain ⟨a, ha⟩ := exists_ofString_eq_append h
    rw [ofString_append, ha, lines, rawLines_append_lineFeed, List.map_append]
    rfl

theorem length_lines_ofString {s : String} (h : s = "" ∨ s.toList.getLast? = some '\n') :
    (lines (ofString s)).length = s.toList.count '\n' := by
  obtain rfl | h := h
  · rfl
  · obtain ⟨a, ha⟩ := exists_ofString_eq_append h
    rw [lines, List.length_map, ← count_lineFeed_ofString, ha, length_rawLines_append_lineFeed]

end Bytes
end Daybook
