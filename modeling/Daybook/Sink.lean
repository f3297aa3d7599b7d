import Daybook.Text.Bytes

/-! Output: the bytes taken so far, and how many more are taken. -/
namespace Daybook

structure Sink where
  /-- The bytes taken so far, the last one first. -/
  reversed : Bytes
  room : Option Nat
  deriving DecidableEq, Repr

namespace Sink

def unlimited : Sink := ⟨[], none⟩

def limited (n : Nat) : Sink := ⟨[], some n⟩

def taken (s : Sink) : Bytes := s.reversed.reverse

def write (s : Sink) (text : String) : Sink × Bool :=
  let bytes := Bytes.ofString text
  match s.room with
  | none => (⟨bytes.reverse ++ s.reversed, none⟩, true)
  | some n =>
    if bytes.length ≤ n then (⟨bytes.reverse ++ s.reversed, some (n - bytes.length)⟩, true)
    else (⟨(bytes.take n).reverse ++ s.reversed, some 0⟩, false)

@[simp] theorem taken_append (b c : Bytes) (room : Option Nat) :
    (Sink.mk (b.reverse ++ c) room).taken = (Sink.mk c room).taken ++ b := by
  simp [taken]

end Sink
end Daybook
