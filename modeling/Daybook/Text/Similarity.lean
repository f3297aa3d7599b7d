/-!
Likeness of two words: how many letters they share near the same place, and how many of these stand
in another order.
-/
namespace Daybook

def claim (c : Char) : (low high : Nat) → List (Char × Bool) → Option (List (Char × Bool))
  | _, 0, _ => none
  | _, _, [] => none
  | low + 1, high + 1, d :: ds => (claim c low high ds).map (d :: ·)
  | 0, high + 1, (d, claimed) :: ds =>
    if d = c ∧ !claimed then some ((d, true) :: ds)
    else (claim c 0 high ds).map ((d, claimed) :: ·)

/-- The shared letters, as they stand in the first word and as they stand in the second. The letter
at place `i` of the first word is sought at most `reach` places from there. -/
def shared (reach : Nat) : Nat → List Char → List (Char × Bool) → List Char × List Char
  | _, [], ds => ([], (ds.filter (·.2)).map (·.1))
  | i, c :: cs, ds =>
    match claim c (i - reach) (i + reach + 1) ds with
    | none => shared reach (i + 1) cs ds
    | some ds =>
      let (first, second) := shared reach (i + 1) cs ds
      (c :: first, second)

/-- Whether two words are alike: the mean of the share of each that is shared, and of the part of
the shared letters that keep their order, is at least seven tenths. -/
def alike (a b : String) : Bool :=
  let (m, n) := (a.length, b.length)
  let (first, second) := shared (max m n / 2 - 1) 0 a.toList (b.toList.map (·, false))
  let k := first.length
  let moved := ((first.zip second).filter fun p => p.1 != p.2).length / 2
  0 < k ∧ 21 * (k * m * n) ≤ 10 * (k * k * n + k * k * m + (k - moved) * m * n)

end Daybook
