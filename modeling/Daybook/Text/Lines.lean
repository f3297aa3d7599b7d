import Daybook.Text.Bytes

/-!
Lines of a source that gives its bytes in blocks. Main statement: cutting at the first line feed
gives the first of the lines and leaves the others.
-/
namespace Daybook.Bytes

def cut? : Bytes → Option (Bytes × Bytes)
  | [] => none
  | b :: bs => if b = lineFeed then some ([], bs) else (cut? bs).map fun r => (b :: r.1, r.2)

theorem rawLines_of_cut?_eq_some {b line rest : Bytes} (h : cut? b = some (line, rest)) :
    rawLines b = ⟨line, true⟩ :: rawLines rest := by
  induction b generalizing line with
  | nil => simp [cut?] at h
  | cons c cs ih =>
    simp only [cut?] at h
    split at h
    · simp_all [rawLines]
    · obtain ⟨⟨line, rest⟩, h, hr⟩ := Option.map_eq_some_iff.1 h
      obtain ⟨rfl, rfl⟩ := Prod.mk.inj hr
      simp_all [rawLines]

theorem rawLines_of_cut?_eq_none {b : Bytes} (h : cut? b = none) (hb : b ≠ []) :
    rawLines b = [⟨b, false⟩] := by
  induction b with
  | nil => contradiction
  | cons c cs ih =>
    simp only [cut?] at h
    split at h
    · contradiction
    · have h := Option.map_eq_none_iff.1 h
      cases cs with
      | nil => simp_all [rawLines]
      | cons d ds => simp_all [rawLines]

def blockSize : Nat := 8192

def lastLine (blocks : List Bytes) : Option RawLine :=
  let content := blocks.reverse.flatten
  if content.isEmpty then none else some ⟨content, false⟩

/-- Takes a line off a buffer, and asks for more as long as it holds no line feed, until a block is
empty. In `front` are the blocks before the buffer, the last one first. What stays in the buffer is
given back. -/
@[specialize] def takeLine {m : Type → Type} [Monad m] (refill : m Bytes) :
    (refills : Nat) → (front : List Bytes) → (buffer : Bytes) → m (Option RawLine × Bytes)
  | 0, front, buffer => pure (lastLine (buffer :: front), [])
  | refills + 1, front, buffer =>
    match cut? buffer with
    | some (line, rest) => pure (some ⟨(line :: front).reverse.flatten, true⟩, rest)
    | none => do
      let block ← refill
      if block.isEmpty then pure (lastLine (buffer :: front), [])
      else takeLine refill refills (buffer :: front) block

end Daybook.Bytes
