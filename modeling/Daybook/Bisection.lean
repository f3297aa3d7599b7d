/-! Halving search. Main statement: it finds where the first part of a list ends. -/
namespace Daybook

def partitionPoint (p : α → Bool) : Nat → List α → Nat
  | 0, _ => 0
  | fuel + 1, xs =>
    let half := xs.length / 2
    match xs.drop half with
    | [] => 0
    | x :: right =>
      if p x then half + 1 + partitionPoint p fuel right
      else partitionPoint p fuel (xs.take half)

/-- The halving search finds the end of the first part. -/
theorem partitionPoint_append {p : α → Bool} {fuel : Nat} {xs ys : List α}
    (hx : ∀ x ∈ xs, p x = true) (hy : ∀ y ∈ ys, p y = false)
    (hf : (xs ++ ys).length ≤ fuel) : partitionPoint p fuel (xs ++ ys) = xs.length := by
  induction fuel generalizing xs ys with
  | zero =>
    have : xs = [] := by cases xs <;> simp_all
    simp [partitionPoint, this]
  | succ fuel ih =>
    simp only [partitionPoint]
    generalize hh : (xs ++ ys).length / 2 = half
    split
    · rename_i hd
      have hl := congrArg List.length hd
      simp only [List.length_drop, List.length_nil, List.length_append] at hl hh
      omega
    · rename_i x right hd
      have hlen := congrArg List.length hd
      simp only [List.length_drop, List.length_cons, List.length_append] at hlen hh hf
      by_cases hlt : half < xs.length
      · rw [List.drop_append_of_le_length (by omega), List.drop_eq_getElem_cons hlt,
          List.cons_append] at hd
        obtain ⟨rfl, rfl⟩ := List.cons.inj hd
        rw [if_pos (hx _ (List.getElem_mem hlt)),
          ih (fun x h => hx x (List.mem_of_mem_drop h)) hy (by simp; omega)]
        simp only [List.length_drop]; omega
      · rw [List.drop_append, List.drop_eq_nil_of_le (by omega), List.nil_append] at hd
        have hmem : x ∈ ys := List.mem_of_mem_drop (hd ▸ List.mem_cons_self)
        rw [if_neg (by simp [hy x hmem]), List.take_append, List.take_of_length_le (by omega)]
        exact ih hx (fun y h => hy y (List.mem_of_mem_take h)) (by simp; omega)

end Daybook
